import Colix.Boot.Multiboot
import Colix.Foundation.RunningMaximum

/-!
# The region given to the page allocator

`parse_mmap` starts its running maximum from a default of 32 MB at 1 MB, so an available entry
counts only when it is longer than that. With such an entry the region that `kernel_main` passes to
`pmm_init` is the longest of them, less the first 2 MiB; without one it is [0x200000, 0x2100000),
whether there is memory or not. `region_available_iff` is the exact condition.
-/

set_option autoImplicit false
set_option relaxedAutoImplicit false

namespace Colix.Boot

open Foundation

/-- The entry is available memory. -/
def MmapEntry.Available (entry : MmapEntry) : Prop :=
  entry.type = 1#32

/-- The region that an entry describes. -/
def MmapEntry.region (entry : MmapEntry) : Region where
  base := entry.baseAddr
  size := entry.length

/-- The region lies inside an available entry. -/
def Region.Within (region : Region) (entry : MmapEntry) : Prop :=
  entry.Available ∧ entry.baseAddr.toNat ≤ region.base.toNat ∧
    region.base.toNat + region.size.toNat ≤ entry.baseAddr.toNat + entry.length.toNat

/-- An available entry that the running maximum takes. -/
def MmapEntry.Large (entry : MmapEntry) : Prop :=
  entry.Available ∧ defaultRegion.size.toNat < entry.length.toNat

section Entries

variable {entries : List MmapEntry} {entry : MmapEntry}

/-- `parse_mmap` keeps the running maximum of the available entries. -/
theorem runningMaximum_considerEntry :
    RunningMaximum MmapEntry.Available MmapEntry.region (fun region ↦ region.size.toNat)
      considerEntry := by
  constructor
  · intro best entry havailable hlonger
    exact if_pos ⟨havailable, BitVec.lt_def.mpr hlonger⟩
  · intro best entry hnot
    exact if_neg fun htake ↦ hnot ⟨htake.1, BitVec.lt_def.mp htake.2⟩

/-- Without a large entry the running maximum is the default. -/
theorem foldl_considerEntry_default (hnone : ∀ entry ∈ entries, ¬ entry.Large) :
    entries.foldl considerEntry defaultRegion = defaultRegion := by
  rcases runningMaximum_considerEntry.foldl entries defaultRegion with
    ⟨hsame, -⟩ | ⟨entry, hfirst, hlength, -⟩
  · exact hsame
  · exact absurd ⟨hfirst.item_counts, hlength⟩ (hnone entry hfirst.mem)

/-- With a large entry the running maximum is the first of the longest large entries. -/
theorem foldl_considerEntry_first (hmem : entry ∈ entries) (hlarge : entry.Large) :
    ∃ longest, FirstMaximum MmapEntry.Large (fun entry ↦ entry.length.toNat) entries longest ∧
      entries.foldl considerEntry defaultRegion = longest.region := by
  rcases runningMaximum_considerEntry.foldl entries defaultRegion with
    ⟨-, hmax⟩ | ⟨longest, hfirst, hlength, hregion⟩
  · exact absurd (hmax entry hmem hlarge.1) (Nat.not_le.mpr hlarge.2)
  · exact ⟨longest, hfirst.mono (fun _ hother ↦ hother.1) ⟨hfirst.item_counts, hlength⟩, hregion⟩

/-- With a large entry the running maximum is a large entry. -/
theorem foldl_considerEntry_large (hmem : entry ∈ entries) (hlarge : entry.Large) :
    ∃ longest ∈ entries, longest.Large ∧
      entries.foldl considerEntry defaultRegion = ⟨longest.baseAddr, longest.length⟩ := by
  obtain ⟨longest, hfirst, hregion⟩ := foldl_considerEntry_first hmem hlarge
  exact ⟨longest, hfirst.mem, hfirst.item_counts, hregion⟩

end Entries

/-! ### The skip of the first 2 MiB -/

section Skip

variable {region : Region}

/-- The skip leaves what of a region lies at or above 2 MiB. Assumes: the region is longer than
2 MiB. -/
theorem skipKernel_region (hsize : 0x200000 < region.size.toNat) :
    (skipKernel region).base.toNat = max region.base.toNat 0x200000 ∧
      (skipKernel region).base.toNat + (skipKernel region).size.toNat =
        region.base.toNat + region.size.toNat := by
  rw [skipKernel]
  by_cases hbelow : region.base < 0x200000#64
  · have hbase : region.base.toNat < 0x200000 := BitVec.lt_def.mp hbelow
    have hskip : (0x200000#64 - region.base).toNat = 0x200000 - region.base.toNat := by
      rw [BitVec.toNat_sub_of_le (BitVec.le_of_lt hbelow)]
      rfl
    have hlt : 0x200000#64 - region.base < region.size := by
      rw [BitVec.lt_def, hskip]
      omega
    have hnext : (region.base + (0x200000#64 - region.base)).toNat = 0x200000 := by
      rw [BitVec.toNat_add, hskip, Nat.add_sub_of_le hbase.le]
    have hrest : (region.size - (0x200000#64 - region.base)).toNat =
        region.size.toNat - (0x200000 - region.base.toNat) := by
      rw [BitVec.toNat_sub_of_le (BitVec.le_of_lt hlt), hskip]
    simp only [if_pos hbelow, if_pos hlt, hnext, hrest]
    omega
  · have hbase : ¬ region.base.toNat < 0x200000 := fun hlt ↦ hbelow (BitVec.lt_def.mpr hlt)
    rw [if_neg hbelow]
    omega

end Skip

/-! ### The region -/

section Block

variable {memory : Memory} {info : Word} {tags : List Tag}

/-- The region that `kernel_main` passes to `pmm_init` lies inside one available entry of the memory
map exactly when some available entry is longer than 32 MB, or some available entry contains
[0x200000, 0x2100000). -/
theorem region_available_iff (hblock : InfoBlock memory info tags) :
    ∃ region, memoryRegion memory info = some region ∧
      ((∃ entry ∈ mmapEntries tags, region.Within entry) ↔
        (∃ entry ∈ mmapEntries tags, entry.Available ∧ 0x2000000 < entry.length.toNat) ∨
          ∃ entry ∈ mmapEntries tags, entry.Available ∧ entry.baseAddr.toNat ≤ 0x200000 ∧
            0x2100000 ≤ entry.baseAddr.toNat + entry.length.toNat) := by
  refine ⟨skipKernel ((mmapEntries tags).foldl considerEntry defaultRegion), ?_, ?_⟩
  · rw [memoryRegion, parseMmap_of_block hblock.mapBlock, Option.map_some]
  · by_cases hlarge : ∃ entry ∈ mmapEntries tags, entry.Large
    · obtain ⟨entry, hmem, hentry⟩ := hlarge
      obtain ⟨longest, hlongest, ⟨havailable, hlength⟩, hregion⟩ :=
        foldl_considerEntry_large hmem hentry
      have hsize : 0x2000000 < longest.length.toNat := hlength
      refine iff_of_true ?_ (Or.inl ⟨entry, hmem, hentry⟩)
      have hlong : 0x200000 < (Region.mk longest.baseAddr longest.length).size.toNat := by
        change 0x200000 < longest.length.toNat
        omega
      obtain ⟨hbase, hend⟩ := skipKernel_region hlong
      rw [hregion]
      exact ⟨longest, hlongest, havailable, hbase ▸ le_max_left _ _, hend.le⟩
    · have hnone : ∀ entry ∈ mmapEntries tags, ¬ entry.Large := fun entry hmem hentry ↦
        hlarge ⟨entry, hmem, hentry⟩
      have hdefault : skipKernel defaultRegion = ⟨0x200000#64, 0x1F00000#64⟩ := by decide
      rw [foldl_considerEntry_default hnone, hdefault]
      constructor
      · rintro ⟨entry, hmem, havailable, hbase, hend⟩
        exact Or.inr ⟨entry, hmem, havailable, hbase, hend⟩
      · rintro (⟨entry, hmem, hentry⟩ | ⟨entry, hmem, havailable, hbase, hend⟩)
        · exact absurd hentry (hnone entry hmem)
        · exact ⟨entry, hmem, havailable, hbase, hend⟩

end Block

/-! ### A machine with 16 MB -/

/-- A memory map with one available entry, from 1 MB to 16 MB. -/
def smallMap : List Byte :=
  [0x38#8, 0#8, 0#8, 0#8, 0#8, 0#8, 0#8, 0#8] ++
    [6#8, 0#8, 0#8, 0#8, 0x28#8, 0#8, 0#8, 0#8, 0x18#8, 0#8, 0#8, 0#8, 0#8, 0#8, 0#8, 0#8] ++
    [0#8, 0#8, 0x10#8, 0#8, 0#8, 0#8, 0#8, 0#8, 0#8, 0#8, 0xF0#8, 0#8, 0#8, 0#8, 0#8, 0#8,
      1#8, 0#8, 0#8, 0#8, 0#8, 0#8, 0#8, 0#8] ++
    [0#8, 0#8, 0#8, 0#8, 8#8, 0#8, 0#8, 0#8]

/-- Memory with bytes at an address. -/
def memoryWith (address : ℕ) (bytes : List Byte) : Memory := fun position ↦
  if address ≤ position then bytes.getD (position - address) 0#8 else 0#8

/-- Its tag. -/
def smallTags : List Tag :=
  [.mmap 40#32 24#32 [⟨0x100000#64, 0xF00000#64, 1#32⟩]]

theorem infoBlock_smallMap : InfoBlock (memoryWith 0x9000 smallMap) 0x9000#64 smallTags := by
  refine ⟨by decide, by decide, by decide, by decide, by decide,
    ⟨by decide, by decide, by decide, ?_⟩,
    by decide, by decide⟩
  intro i entry hentry
  match i, hentry with
  | 0, hentry =>
    cases hentry
    decide

/-- On a machine with 16 MB the region is [0x200000, 0x2100000), and no available entry contains
it. -/
theorem smallMap_not_available :
    InfoBlock (memoryWith 0x9000 smallMap) 0x9000#64 smallTags ∧
      memoryRegion (memoryWith 0x9000 smallMap) 0x9000#64 = some ⟨0x200000#64, 0x1F00000#64⟩ ∧
        ∀ entry ∈ mmapEntries smallTags, ¬ Region.Within ⟨0x200000#64, 0x1F00000#64⟩ entry := by
  refine ⟨infoBlock_smallMap, ?_, ?_⟩
  · rw [memoryRegion, parseMmap_of_block infoBlock_smallMap.mapBlock]
    decide
  · rintro entry hmem ⟨-, -, hend⟩
    rw [mmapEntries, smallTags, List.flatMap_singleton, Tag.entries, List.mem_singleton] at hmem
    subst hmem
    exact absurd hend (by decide)

/-- The same map, by the condition. -/
theorem region_available_iff_small : ∃ region,
    memoryRegion (memoryWith 0x9000 smallMap) 0x9000#64 = some region ∧
      ((∃ entry ∈ mmapEntries smallTags, region.Within entry) ↔
        (∃ entry ∈ mmapEntries smallTags, entry.Available ∧ 0x2000000 < entry.length.toNat) ∨
          ∃ entry ∈ mmapEntries smallTags, entry.Available ∧
            entry.baseAddr.toNat ≤ 0x200000 ∧
              0x2100000 ≤ entry.baseAddr.toNat + entry.length.toNat) :=
  region_available_iff infoBlock_smallMap

end Colix.Boot
