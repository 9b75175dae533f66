import Colix.Boot.MemoryRegion

/-!
# The entry that `parse_mmap` selects

On every block whose tags are well formed, whatever the other tags are, and wherever in the block
the end tag stands, `parse_mmap` returns the first of the longest available entries above 32 MB. It
returns the default exactly when there is none: a large entry is longer than the default.
-/

set_option autoImplicit false
set_option relaxedAutoImplicit false

namespace Colix.Boot

open Foundation

section Block

variable {memory : Memory} {info : Word} {tags : List Tag}

/-- A large entry is not the default. -/
theorem MmapEntry.Large.region_ne {entry : MmapEntry} (hlarge : entry.Large) :
    entry.region ≠ defaultRegion := by
  intro hsame
  have hlength : entry.length = defaultRegion.size := congrArg Region.size hsame
  exact absurd hlarge.2 (by rw [hlength]; exact lt_irrefl _)

/-- `parse_mmap` returns the base and the length of the first, in the order of tags and entries, of
the longest available entries above 32 MB, and the default exactly when there is no such entry. -/
theorem parseMmap_largest (hblock : MapBlock memory info tags) :
    ∃ region, parseMmap memory info = some region ∧
      ((∃ entry ∈ mmapEntries tags, entry.Large) →
        ∃ entry, FirstMaximum MmapEntry.Large (fun entry ↦ entry.length.toNat)
          (mmapEntries tags) entry ∧ region = entry.region) ∧
      (region = defaultRegion ↔ ¬ ∃ entry ∈ mmapEntries tags, entry.Large) := by
  refine ⟨_, parseMmap_of_block hblock, ?_, ?_, ?_⟩
  · rintro ⟨entry, hmem, hlarge⟩
    exact foldl_considerEntry_first hmem hlarge
  · rintro hdefault ⟨entry, hmem, hlarge⟩
    obtain ⟨longest, hfirst, hregion⟩ := foldl_considerEntry_first hmem hlarge
    exact hfirst.item_counts.region_ne (hregion.symm.trans hdefault)
  · intro hnone
    exact foldl_considerEntry_default fun entry hmem hlarge ↦ hnone ⟨entry, hmem, hlarge⟩

end Block

/-! ### A tie -/

/-- A block with a name, a short module tag and two memory maps: 16 MB and 48 MB in the first, and
48 MB more in the second. Eight bytes follow the end tag. -/
def tiedMap : List Byte :=
  [0x98#8, 0#8, 0#8, 0#8, 0#8, 0#8, 0#8, 0#8] ++
    [2#8, 0#8, 0#8, 0#8, 0xA#8, 0#8, 0#8, 0#8, 0x67#8, 0#8, 0#8, 0#8, 0#8, 0#8, 0#8, 0#8] ++
    [3#8, 0#8, 0#8, 0#8, 8#8, 0#8, 0#8, 0#8] ++
    [6#8, 0#8, 0#8, 0#8, 0x40#8, 0#8, 0#8, 0#8, 0x18#8, 0#8, 0#8, 0#8, 0#8, 0#8, 0#8, 0#8] ++
    [0#8, 0#8, 0#8, 2#8, 0#8, 0#8, 0#8, 0#8, 0#8, 0#8, 0#8, 1#8, 0#8, 0#8, 0#8, 0#8,
      1#8, 0#8, 0#8, 0#8, 0#8, 0#8, 0#8, 0#8] ++
    [0#8, 0#8, 0#8, 4#8, 0#8, 0#8, 0#8, 0#8, 0#8, 0#8, 0#8, 3#8, 0#8, 0#8, 0#8, 0#8,
      1#8, 0#8, 0#8, 0#8, 0#8, 0#8, 0#8, 0#8] ++
    [6#8, 0#8, 0#8, 0#8, 0x28#8, 0#8, 0#8, 0#8, 0x18#8, 0#8, 0#8, 0#8, 0#8, 0#8, 0#8, 0#8] ++
    [0#8, 0#8, 0#8, 8#8, 0#8, 0#8, 0#8, 0#8, 0#8, 0#8, 0#8, 3#8, 0#8, 0#8, 0#8, 0#8,
      1#8, 0#8, 0#8, 0#8, 0#8, 0#8, 0#8, 0#8] ++
    [0#8, 0#8, 0#8, 0#8, 8#8, 0#8, 0#8, 0#8, 0#8, 0#8, 0#8, 0#8, 0#8, 0#8, 0#8, 0#8]

/-- Its tags. -/
def tiedTags : List Tag :=
  [.other 2#32 10#32, .module 8#32 0#32 0#32,
    .mmap 64#32 24#32 [⟨0x2000000#64, 0x1000000#64, 1#32⟩, ⟨0x4000000#64, 0x3000000#64, 1#32⟩],
    .mmap 40#32 24#32 [⟨0x8000000#64, 0x3000000#64, 1#32⟩]]

theorem mapBlock_tiedMap : MapBlock (memoryWith 0x9000 tiedMap) 0x9000#64 tiedTags := by
  refine ⟨by decide, by decide, 0x9000 + 136, ⟨by decide, by decide,
    ⟨by decide, by decide, by decide⟩, by decide, by decide, (by decide : 8 ≤ (8#32).toNat),
    by decide, by decide, ⟨by decide, by decide, by decide, ?_⟩,
    by decide, by decide, ⟨by decide, by decide, by decide, ?_⟩, by decide, by decide⟩, by decide⟩
  · intro i entry hentry
    match i, hentry with
    | 0, hentry =>
      cases hentry
      decide
    | 1, hentry =>
      cases hentry
      decide
  · intro i entry hentry
    match i, hentry with
    | 0, hentry =>
      cases hentry
      decide

/-- Of two entries of one length the first is selected. -/
theorem parseMmap_largest_tied : ∃ region,
    parseMmap (memoryWith 0x9000 tiedMap) 0x9000#64 = some region ∧
      ((∃ entry ∈ mmapEntries tiedTags, entry.Large) →
        ∃ entry, FirstMaximum MmapEntry.Large (fun entry ↦ entry.length.toNat)
          (mmapEntries tiedTags) entry ∧ region = entry.region) ∧
      (region = defaultRegion ↔ ¬ ∃ entry ∈ mmapEntries tiedTags, entry.Large) :=
  parseMmap_largest mapBlock_tiedMap

end Colix.Boot
