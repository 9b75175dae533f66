import Colix.Boot.Multiboot
import Colix.Foundation.RecordWalk
import Colix.Foundation.Traced

/-!
# The reads of the tag walks

`parse_mmap` and the module search of `kernel_main` again, with the bytes they read:
`value_parseMmapTraced` and `value_findModuleTraced` give the values of `parseMmap` and
`findModule`. Neither looks at a tag's size before it follows it, so a tag of size 0 holds either
walk, and the module search goes on past the block when the block has no end tag.

`walksInside_iff` says of which blocks both walks end and read nothing outside: every tag that a
walk reaches has the fields that the walk reads inside the block, and its size does not round to 0.
-/

set_option autoImplicit false
set_option relaxedAutoImplicit false

namespace Colix.Boot

open Foundation Foundation.Traced

/-! ### The source, with its reads -/

/-- The fields of an entry that `parse_mmap` prints and compares. -/
def readEntryTraced (memory : Memory) (e : Word) : Traced ℕ MmapEntry := do
  let baseAddr ← readWord 64 memory e.toNat
  let length ← readWord 64 memory (e.toNat + 8)
  let type ← readWord 32 memory (e.toNat + 16)
  pure ⟨baseAddr, length, type⟩

/-- The loop over the entries of the memory map `mm`. -/
def parseEntriesTraced (memory : Memory) (mm ee : Word) :
    ℕ → Word → Region → Traced ℕ Region
  | 0, _, _ => ofOption none
  | fuel + 1, e, best =>
    if e < ee then do
      let entry ← readEntryTraced memory e
      let entrySize ← readWord 32 memory (mm.toNat + 8)
      parseEntriesTraced memory mm ee fuel (e + entrySize.setWidth 64) (considerEntry best entry)
    else pure best

/-- The entries of a tag, when it is a memory map. -/
def parseMapTraced (memory : Memory) (fuel : ℕ) (p : Word) (type : Word32) (best : Region) :
    Traced ℕ Region :=
  if type = 6#32 then do
    let size ← readWord 32 memory (p.toNat + 4)
    parseEntriesTraced memory p (p + size.setWidth 64) fuel (p + 16#64) best
  else pure best

/-- The loop over the tags. -/
def parseTagsTraced (memory : Memory) (endPtr : Word) : ℕ → Word → Region → Traced ℕ Region
  | 0, _, _ => ofOption none
  | fuel + 1, p, best =>
    if p < endPtr then do
      let type ← readWord 32 memory p.toNat
      if type = 0#32 then pure best
      else do
        let best ← parseMapTraced memory fuel p type best
        let size ← readWord 32 memory (p.toNat + 4)
        parseTagsTraced memory endPtr fuel (p + (alignTagSize size).setWidth 64) best
    else pure best

/-- `parse_mmap`, its loop over the tags with fuel. -/
def parseMmapTraced (memory : Memory) (fuel : ℕ) (info : Word) : Traced ℕ Region :=
  if info = 0#64 then pure defaultRegion
  else do
    let totalSize ← readWord 32 memory info.toNat
    if totalSize < 8#32 then pure defaultRegion
    else
      parseTagsTraced memory (info + totalSize.setWidth 64) fuel (info + 8#64) defaultRegion

/-- The walk of `kernel_main` to the first module. -/
def findModuleTraced (memory : Memory) : ℕ → Word → Traced ℕ (Option (Word × Word))
  | 0, _ => ofOption none
  | fuel + 1, tag => do
    let type ← readWord 32 memory tag.toNat
    if type = 0#32 then pure none
    else if type = 3#32 then do
      let modStart ← readWord 32 memory (tag.toNat + 8)
      let modEnd ← readWord 32 memory (tag.toNat + 12)
      pure (some (modStart.setWidth 64, modEnd.setWidth 64))
    else do
      let size ← readWord 32 memory (tag.toNat + 4)
      findModuleTraced memory fuel (tag + (alignTagSize size).setWidth 64)

/-! ### The values are those of the source -/

section Values

variable {memory : Memory}

@[simp] theorem value_readEntryTraced (e : Word) :
    (readEntryTraced memory e).value = some (readEntry memory e) := rfl

theorem value_parseEntriesTraced (mm ee : Word) (fuel : ℕ) (e : Word) (best : Region) :
    (parseEntriesTraced memory mm ee fuel e best).value =
      parseEntries memory (load 32 memory (mm.toNat + 8)) ee fuel e best := by
  induction fuel generalizing e best with
  | zero => rfl
  | succ fuel ih =>
    rw [parseEntriesTraced, parseEntries]
    split_ifs with hlt
    · simp only [value_bind, value_readEntryTraced, value_readWord, Option.bind_some]
      exact ih _ _
    · rfl

theorem value_parseMapTraced (fuel : ℕ) (p : Word) (type : Word32) (best : Region) :
    (parseMapTraced memory fuel p type best).value =
      if type = 6#32 then
        parseEntries memory (load 32 memory (p.toNat + 8))
          (p + (load 32 memory (p.toNat + 4) : Word32).setWidth 64) fuel (p + 16#64) best
      else some best := by
  rw [parseMapTraced]
  split_ifs with htype
  · simp only [value_bind, value_readWord, Option.bind_some]
    exact value_parseEntriesTraced _ _ _ _ _
  · rfl

theorem value_parseTagsTraced (endPtr : Word) (fuel : ℕ) (p : Word) (best : Region) :
    (parseTagsTraced memory endPtr fuel p best).value =
      parseTags memory endPtr fuel p best := by
  induction fuel generalizing p best with
  | zero => rfl
  | succ fuel ih =>
    rw [parseTagsTraced, parseTags]
    by_cases hlt : p < endPtr
    · simp only [if_pos hlt, value_bind, value_readWord, Option.bind_some]
      by_cases hend : (load 32 memory p.toNat : Word32) = 0#32
      · rw [if_pos hend, if_pos hend]
        rfl
      · rw [if_neg hend, if_neg hend]
        simp only [value_bind, value_readWord, Option.bind_some, value_parseMapTraced, ih]
        cases (if (load 32 memory p.toNat : Word32) = 6#32 then
          parseEntries memory (load 32 memory (p.toNat + 8))
            (p + (load 32 memory (p.toNat + 4) : Word32).setWidth 64) fuel (p + 16#64) best
          else some best) <;> rfl
    · rw [if_neg hlt, if_neg hlt]
      rfl

theorem value_parseMmapTraced (info : Word) :
    (parseMmapTraced memory (load 32 memory info.toNat : Word32).toNat info).value =
      parseMmap memory info := by
  rw [parseMmapTraced, parseMmap]
  by_cases hnull : info = 0#64
  · rw [if_pos hnull, if_pos (.inl hnull)]
    rfl
  · rw [if_neg hnull]
    simp only [hnull, false_or, value_bind, value_readWord, Option.bind_some]
    by_cases hsmall : (load 32 memory info.toNat : Word32) < 8#32
    · rw [if_pos hsmall, if_pos hsmall]
      rfl
    · rw [if_neg hsmall, if_neg hsmall]
      exact value_parseTagsTraced _ _ _ _

theorem value_findModuleTraced (fuel : ℕ) (tag : Word) :
    (findModuleTraced memory fuel tag).value = findModule memory fuel tag := by
  induction fuel generalizing tag with
  | zero => rfl
  | succ fuel ih =>
    rw [findModuleTraced, findModule]
    simp only [value_bind, value_readWord, Option.bind_some]
    split_ifs
    · rfl
    · rfl
    · simp only [value_bind, value_readWord, Option.bind_some]
      exact ih _

end Values

/-! ### What the walks need of a tag -/

/-- `tag->type`, `tag->size` and `mm->entry_size`. -/
def tagType (memory : Memory) (p : Word) : Word32 :=
  load 32 memory p.toNat

def tagSize (memory : Memory) (p : Word) : Word32 :=
  load 32 memory (p.toNat + 4)

def entrySize (memory : Memory) (p : Word) : Word32 :=
  load 32 memory (p.toNat + 8)

/-- The place of the next tag. -/
def tagAfter (memory : Memory) (p : Word) : Word :=
  p + (alignTagSize (tagSize memory p)).setWidth 64

/-- The tag that `parse_mmap` goes on to. -/
def nextTag (memory : Memory) (endPtr p : Word) : Option Word :=
  if p < endPtr ∧ tagType memory p ≠ 0#32 then some (tagAfter memory p) else none

/-- The tag that the module search goes on to. -/
def nextSearched (memory : Memory) (p : Word) : Option Word :=
  if tagType memory p ≠ 0#32 ∧ tagType memory p ≠ 3#32 then some (tagAfter memory p) else none

/-- The tag has a size that leads on, and its first eight bytes lie in the block. -/
def LeadsOn (memory : Memory) (last : ℕ) (p : Word) : Prop :=
  p.toNat + 8 ≤ last ∧ alignTagSize (tagSize memory p) ≠ 0#32

/-- Every entry that starts in the tag ends in the block up to its type, and the next one
follows. -/
def EntriesInside (memory : Memory) (last : ℕ) (p : Word) : Prop :=
  ∀ i, 16 + i * (entrySize memory p).toNat < (tagSize memory p).toNat →
    p.toNat + 16 + i * (entrySize memory p).toNat + 20 ≤ last ∧ entrySize memory p ≠ 0#32

/-- What `parse_mmap` needs of a tag. -/
structure TagParses (memory : Memory) (last : ℕ) (p : Word) : Prop where
  type : p.toNat + 4 ≤ last
  leads : tagType memory p ≠ 0#32 → LeadsOn memory last p
  entries : tagType memory p = 6#32 → EntriesInside memory last p

/-- What the module search needs of a tag. -/
structure TagSearches (memory : Memory) (last : ℕ) (p : Word) : Prop where
  type : p.toNat + 4 ≤ last
  module : tagType memory p = 3#32 → p.toNat + 16 ≤ last
  leads : tagType memory p ≠ 0#32 → tagType memory p ≠ 3#32 → LeadsOn memory last p

/-! ### The loop over the entries -/

section Walks

variable {memory : Memory} {base : ℕ} {p mm e ee endPtr : Word} {fuel last : ℕ} {best : Region}

theorem completes_readEntry_bind {Result : Type} {next : MmapEntry → Traced ℕ Result} :
    Completes (Between base last) (readEntryTraced memory e >>= next) ↔
      (base ≤ e.toNat ∧ e.toNat + 20 ≤ last) ∧
        Completes (Between base last) (next (readEntry memory e)) := by
  have hentry : Completes (Between base last) (readEntryTraced memory e) ↔
      base ≤ e.toNat ∧ e.toNat + 20 ≤ last := by
    rw [readEntryTraced, completes_readWord_bind (by decide), completes_readWord_bind (by decide),
      completes_readWord_bind (by decide), completes_pure, and_true]
    omega
  rw [completes_bind, hentry]
  simp

/-- One turn of the loop over the entries. -/
theorem completes_parseEntries_succ :
    Completes (Between base last) (parseEntriesTraced memory mm ee (fuel + 1) e best) ↔
      (e < ee → (base ≤ e.toNat ∧ e.toNat + 20 ≤ last) ∧
        (base ≤ mm.toNat + 8 ∧ mm.toNat + 12 ≤ last) ∧
        Completes (Between base last) (parseEntriesTraced memory mm ee fuel
          (e + (entrySize memory mm).setWidth 64) (considerEntry best (readEntry memory e)))) := by
  rw [parseEntriesTraced]
  split_ifs with hlt
  · rw [completes_readEntry_bind, completes_readWord_bind (by decide)]
    simp only [hlt, forall_const]
    rfl
  · simp [hlt]

/-- Entries of size 0 hold the loop. -/
theorem not_completes_parseEntries (hzero : entrySize memory mm = 0#32) (hlt : e < ee) :
    ¬ Completes (Between base last) (parseEntriesTraced memory mm ee fuel e best) := by
  induction fuel generalizing best with
  | zero => exact fun hcompletes ↦ absurd hcompletes.1 (by simp [parseEntriesTraced])
  | succ fuel ih =>
    rw [completes_parseEntries_succ, hzero]
    intro hturn
    have hagain := (hturn hlt).2.2
    rw [BitVec.setWidth_zero, BitVec.add_zero] at hagain
    exact ih hagain

/-- The pointer to the next entry. -/
theorem toNat_nextEntry (memory : Memory) (mm : Word) (hee : ee.toNat < 2 ^ 34) (hlt : e < ee) :
    (e + (entrySize memory mm).setWidth 64).toNat = e.toNat + (entrySize memory mm).toNat := by
  have hsize := (entrySize memory mm).isLt
  rw [BitVec.lt_def] at hlt
  rw [toNat_pointer_add (by rw [toNat_setWidth_64]; omega), toNat_setWidth_64]

/-- A loop over the entries that ends with its reads inside has found every entry inside. -/
theorem entries_of_completes (hee : ee.toNat < 2 ^ 34)
    (hcompletes : Completes (Between base last) (parseEntriesTraced memory mm ee fuel e best))
    (i : ℕ) (hi : e.toNat + i * (entrySize memory mm).toNat < ee.toNat) :
    e.toNat + i * (entrySize memory mm).toNat + 20 ≤ last ∧ entrySize memory mm ≠ 0#32 := by
  induction fuel generalizing e best i with
  | zero => exact absurd hcompletes.1 (by simp [parseEntriesTraced])
  | succ fuel ih =>
    have hlt : e < ee := by
      rw [BitVec.lt_def]
      omega
    have hne : entrySize memory mm ≠ 0#32 := fun hzero ↦
      not_completes_parseEntries hzero hlt hcompletes
    obtain ⟨hinside, -, hrest⟩ := completes_parseEntries_succ.mp hcompletes hlt
    refine ⟨?_, hne⟩
    cases i with
    | zero =>
      rw [Nat.zero_mul, Nat.add_zero]
      exact hinside.2
    | succ i =>
      have hnext := toNat_nextEntry memory mm hee hlt
      rw [Nat.succ_mul] at hi ⊢
      have hlater := (ih hrest i (by rw [hnext]; omega)).1
      rw [hnext] at hlater
      omega

/-- Over entries that lie inside, the loop ends with its reads inside. -/
theorem completes_of_entries (hee : ee.toNat < 2 ^ 34) (hmm : base ≤ mm.toNat)
    (hfirst : mm.toNat ≤ e.toNat) (hfuel : 0 < fuel) (hlast : last < e.toNat + fuel)
    (hentries : ∀ i, e.toNat + i * (entrySize memory mm).toNat < ee.toNat →
      e.toNat + i * (entrySize memory mm).toNat + 20 ≤ last ∧ entrySize memory mm ≠ 0#32) :
    Completes (Between base last) (parseEntriesTraced memory mm ee fuel e best) := by
  induction fuel generalizing e best with
  | zero => omega
  | succ fuel ih =>
    rw [completes_parseEntries_succ]
    intro hlt
    have hnext := toNat_nextEntry memory mm hee hlt
    obtain ⟨hinside, hne⟩ := hentries 0 (by rw [Nat.zero_mul]; exact BitVec.lt_def.mp hlt)
    rw [Nat.zero_mul, Nat.add_zero] at hinside
    have hpositive : 0 < (entrySize memory mm).toNat := by
      rw [Nat.pos_iff_ne_zero]
      exact fun hzero ↦ hne (BitVec.eq_of_toNat_eq hzero)
    refine ⟨⟨by omega, hinside⟩, ⟨by omega, by omega⟩, ih (by omega) (by omega) (by omega) ?_⟩
    intro i hi
    have hplace : e.toNat + (entrySize memory mm).toNat + i * (entrySize memory mm).toNat =
        e.toNat + (i + 1) * (entrySize memory mm).toNat := by
      rw [Nat.succ_mul]
      omega
    rw [hnext, hplace] at hi ⊢
    exact hentries (i + 1) hi

/-! ### The loop over the tags -/

/-- The first entry of a memory map, and the end of its entries. -/
theorem toNat_entryBounds (memory : Memory) (hp : p.toNat < 2 ^ 33) :
    (p + 16#64).toNat = p.toNat + 16 ∧
      (p + (tagSize memory p).setWidth 64).toNat = p.toNat + (tagSize memory p).toNat := by
  have hsize := (tagSize memory p).isLt
  refine ⟨toNat_pointer_add (by rw [BitVec.toNat_ofNat]; omega), ?_⟩
  rw [toNat_pointer_add (by rw [toNat_setWidth_64]; omega), toNat_setWidth_64]

/-- The entries of a tag, as the loop over them has them. -/
theorem entriesInside_iff (hp : p.toNat < 2 ^ 33) : EntriesInside memory last p ↔
    ∀ i, (p + 16#64).toNat + i * (entrySize memory p).toNat <
        (p + (tagSize memory p).setWidth 64).toNat →
      (p + 16#64).toNat + i * (entrySize memory p).toNat + 20 ≤ last ∧
        entrySize memory p ≠ 0#32 := by
  obtain ⟨hfirst, hee⟩ := toNat_entryBounds memory hp
  rw [hfirst, hee]
  exact forall_congr' fun i ↦ by rw [Nat.add_assoc p.toNat 16, Nat.add_lt_add_iff_left]

/-- A tag is passed only when its entries lie inside. -/
theorem entriesInside_of_completes (hp : p.toNat < 2 ^ 33) (htype : tagType memory p = 6#32)
    (hcompletes : Completes (Between base last)
      (parseMapTraced memory fuel p (tagType memory p) best)) : EntriesInside memory last p := by
  have hsize := (tagSize memory p).isLt
  have hee : (p + (tagSize memory p).setWidth 64).toNat < 2 ^ 34 := by
    rw [(toNat_entryBounds memory hp).2]
    omega
  rw [parseMapTraced, if_pos htype, completes_readWord_bind (by decide)] at hcompletes
  exact (entriesInside_iff hp).mpr (entries_of_completes hee hcompletes.2)

/-- A tag whose entries lie inside is passed. -/
theorem completes_parseMap (hp : p.toNat < 2 ^ 33) (hbase : base ≤ p.toNat)
    (hsize : p.toNat + 8 ≤ last) (hfuel : 0 < fuel) (hlast : last < p.toNat + 16 + fuel)
    (hentries : tagType memory p = 6#32 → EntriesInside memory last p) :
    Completes (Between base last) (parseMapTraced memory fuel p (tagType memory p) best) := by
  obtain ⟨hfirst, hend⟩ := toNat_entryBounds memory hp
  rw [parseMapTraced]
  split_ifs with htype
  · have hsizeLt := (tagSize memory p).isLt
    have hee : (p + (tagSize memory p).setWidth 64).toNat < 2 ^ 34 := by omega
    rw [completes_readWord_bind (by decide)]
    exact ⟨⟨by omega, by omega⟩, completes_of_entries hee hbase (by omega) hfuel (by omega)
      ((entriesInside_iff hp).mp (hentries htype))⟩
  · exact (completes_pure best).mpr trivial

/-- One turn of the loop over the tags. -/
theorem completes_parseTags_succ :
    Completes (Between base last) (parseTagsTraced memory endPtr (fuel + 1) p best) ↔
      (p < endPtr → (base ≤ p.toNat ∧ p.toNat + 4 ≤ last) ∧ (tagType memory p ≠ 0#32 →
        Completes (Between base last) (parseMapTraced memory fuel p (tagType memory p) best) ∧
        ∀ found, (parseMapTraced memory fuel p (tagType memory p) best).value = some found →
          (base ≤ p.toNat + 4 ∧ p.toNat + 8 ≤ last) ∧
          Completes (Between base last)
            (parseTagsTraced memory endPtr fuel (tagAfter memory p) found))) := by
  rw [parseTagsTraced]
  split_ifs with hlt
  · rw [completes_readWord_bind (by decide), ← tagType]
    split_ifs with hend
    · simp [hlt, hend]
    · rw [completes_bind]
      simp only [hlt, forall_const, ne_eq, hend, not_false_eq_true,
        completes_readWord_bind (by decide : 0 < 32 / 8)]
      rfl
  · simp [hlt]

/-- A tag whose size rounds to 0 holds the loop. -/
theorem not_completes_parseTags (hlt : p < endPtr) (htype : tagType memory p ≠ 0#32)
    (hzero : alignTagSize (tagSize memory p) = 0#32) :
    ¬ Completes (Between base last) (parseTagsTraced memory endPtr fuel p best) := by
  induction fuel generalizing best with
  | zero => exact fun hcompletes ↦ absurd hcompletes.1 (by simp [parseTagsTraced])
  | succ fuel ih =>
    rw [completes_parseTags_succ]
    intro hturn
    obtain ⟨hmap, hrest⟩ := (hturn hlt).2 htype
    obtain ⟨found, hfound⟩ := Option.isSome_iff_exists.mp hmap.1
    have hagain := (hrest found hfound).2
    rw [tagAfter, hzero, BitVec.setWidth_zero, BitVec.add_zero] at hagain
    exact ih hagain

/-- The place of the next tag, in the integers. -/
theorem toNat_tagAfter (memory : Memory) (hp : p.toNat < 2 ^ 33) :
    (tagAfter memory p).toNat = p.toNat + (alignTagSize (tagSize memory p)).toNat := by
  have hsize := (alignTagSize (tagSize memory p)).isLt
  rw [tagAfter, toNat_pointer_add (by rw [toNat_setWidth_64]; omega), toNat_setWidth_64]

/-- A loop over the tags that ends with its reads inside has found every tag as it needs it. -/
theorem tags_of_completes (hend : endPtr.toNat < 2 ^ 33)
    (hcompletes : Completes (Between base last) (parseTagsTraced memory endPtr fuel p best))
    (number : ℕ) (place : Word) (hplace : placeAt (nextTag memory endPtr) p number = some place)
    (hlt : place < endPtr) : TagParses memory last place := by
  induction fuel generalizing p best number with
  | zero => exact absurd hcompletes.1 (by simp [parseTagsTraced])
  | succ fuel ih =>
    have hturn := completes_parseTags_succ.mp hcompletes
    cases number with
    | zero =>
      obtain rfl : p = place := Option.some.inj hplace
      have hp : p.toNat < 2 ^ 33 := by
        rw [BitVec.lt_def] at hlt
        omega
      obtain ⟨htype, hrest⟩ := hturn hlt
      refine ⟨htype.2, fun hne ↦ ?_, fun hmap ↦ ?_⟩
      · obtain ⟨hmap, hafter⟩ := hrest hne
        obtain ⟨found, hfound⟩ := Option.isSome_iff_exists.mp hmap.1
        exact ⟨(hafter found hfound).1.2, fun hzero ↦
          not_completes_parseTags hlt hne hzero hcompletes⟩
      · have hne : tagType memory p ≠ 0#32 := by
          rw [hmap]
          decide
        exact entriesInside_of_completes hp hmap (hrest hne).1
    | succ number =>
      by_cases hleads : p < endPtr ∧ tagType memory p ≠ 0#32
      · have hnext : nextTag memory endPtr p = some (tagAfter memory p) := if_pos hleads
        obtain ⟨hmap, hafter⟩ := (hturn hleads.1).2 hleads.2
        obtain ⟨found, hfound⟩ := Option.isSome_iff_exists.mp hmap.1
        rw [placeAt_succ hnext] at hplace
        exact ih (hafter found hfound).2 number hplace
      · have hnone : nextTag memory endPtr p = none := if_neg hleads
        rw [placeAt_succ_of_none hnone] at hplace
        cases hplace

/-- A rounded size that is not 0 is at least 8. -/
theorem alignTagSize_ge {size : Word32} (hne : alignTagSize size ≠ 0#32) :
    8 ≤ (alignTagSize size).toNat := by
  have hround := toNat_and_not_lowMask (by decide : 3 ≤ 32) (size + 7#32)
  have hvalue : (alignTagSize size).toNat = (size + 7#32).toNat / 2 ^ 3 * 2 ^ 3 := hround
  have hpositive : (alignTagSize size).toNat ≠ 0 := fun hzero ↦
    hne (BitVec.eq_of_toNat_eq hzero)
  omega

/-- Over tags that are as it needs them, the loop ends with its reads inside. -/
theorem completes_of_tags (hend : endPtr.toNat < 2 ^ 33) (hlast : endPtr.toNat = last)
    (hbase : base ≤ p.toNat) (hfuel : 0 < fuel) (hmeasure : last < p.toNat + fuel)
    (htags : ∀ number place, placeAt (nextTag memory endPtr) p number = some place →
      place < endPtr → TagParses memory last place) :
    Completes (Between base last) (parseTagsTraced memory endPtr fuel p best) := by
  induction fuel generalizing p best with
  | zero => omega
  | succ fuel ih =>
    rw [completes_parseTags_succ]
    intro hlt
    have htag := htags 0 p rfl hlt
    refine ⟨⟨hbase, htag.type⟩, fun hne ↦ ?_⟩
    obtain ⟨hsize, hrounds⟩ := htag.leads hne
    have hadvance := alignTagSize_ge hrounds
    have hp : p.toNat < 2 ^ 33 := by omega
    have hafter := toNat_tagAfter memory hp
    have hnext : nextTag memory endPtr p = some (tagAfter memory p) := if_pos ⟨hlt, hne⟩
    refine ⟨completes_parseMap hp hbase hsize (by omega) (by omega) htag.entries,
      fun found hfound ↦ ⟨⟨by omega, hsize⟩, ih (by omega) (by omega) (by omega) ?_⟩⟩
    intro number place hplace
    rw [← placeAt_succ hnext] at hplace
    exact htags (number + 1) place hplace

/-! ### The module search -/

/-- One turn of the search. -/
theorem completes_findModule_succ :
    Completes (Between base last) (findModuleTraced memory (fuel + 1) p) ↔
      (base ≤ p.toNat ∧ p.toNat + 4 ≤ last) ∧
        (tagType memory p = 3#32 → base ≤ p.toNat + 8 ∧ p.toNat + 16 ≤ last) ∧
        (tagType memory p ≠ 0#32 → tagType memory p ≠ 3#32 →
          (base ≤ p.toNat + 4 ∧ p.toNat + 8 ≤ last) ∧
          Completes (Between base last) (findModuleTraced memory fuel (tagAfter memory p))) := by
  rw [findModuleTraced, completes_readWord_bind (by decide), ← tagType]
  refine and_congr_right fun _ ↦ ?_
  split_ifs with hend hmodule
  · simp [hend]
  · rw [completes_readWord_bind (by decide), completes_readWord_bind (by decide), completes_pure]
    simp only [hmodule, forall_const, ne_eq, not_true_eq_false, false_imp_iff, implies_true,
      and_true]
    omega
  · rw [completes_readWord_bind (by decide)]
    simp only [hend, hmodule, ne_eq, not_false_eq_true, forall_const, false_imp_iff, true_and]
    rfl

/-- A tag whose size rounds to 0 holds the search. -/
theorem not_completes_findModule (htype : tagType memory p ≠ 0#32)
    (hother : tagType memory p ≠ 3#32)
    (hzero : alignTagSize (tagSize memory p) = 0#32) :
    ¬ Completes (Between base last) (findModuleTraced memory fuel p) := by
  induction fuel with
  | zero => exact fun hcompletes ↦ absurd hcompletes.1 (by simp [findModuleTraced])
  | succ fuel ih =>
    rw [completes_findModule_succ]
    rintro ⟨-, -, hrest⟩
    have hagain := (hrest htype hother).2
    rw [tagAfter, hzero, BitVec.setWidth_zero, BitVec.add_zero] at hagain
    exact ih hagain

/-- A search that ends with its reads inside has found every tag as it needs it. -/
theorem tags_of_findModule
    (hcompletes : Completes (Between base last) (findModuleTraced memory fuel p)) (number : ℕ)
    (place : Word) (hplace : placeAt (nextSearched memory) p number = some place) :
    TagSearches memory last place := by
  induction fuel generalizing p number with
  | zero => exact absurd hcompletes.1 (by simp [findModuleTraced])
  | succ fuel ih =>
    obtain ⟨htype, hmodule, hrest⟩ := completes_findModule_succ.mp hcompletes
    cases number with
    | zero =>
      obtain rfl : p = place := Option.some.inj hplace
      exact ⟨htype.2, fun heq ↦ (hmodule heq).2, fun hne hother ↦ ⟨(hrest hne hother).1.2,
        fun hzero ↦ not_completes_findModule hne hother hzero hcompletes⟩⟩
    | succ number =>
      by_cases hleads : tagType memory p ≠ 0#32 ∧ tagType memory p ≠ 3#32
      · have hnext : nextSearched memory p = some (tagAfter memory p) := if_pos hleads
        rw [placeAt_succ hnext] at hplace
        exact ih (hrest hleads.1 hleads.2).2 number hplace
      · have hnone : nextSearched memory p = none := if_neg hleads
        rw [placeAt_succ_of_none hnone] at hplace
        cases hplace

/-- Over tags that are as it needs them, the search ends with its reads inside. -/
theorem completes_findModule (hlast : last < 2 ^ 33) (hbase : base ≤ p.toNat)
    (hmeasure : last < p.toNat + fuel) (htags : ∀ number place,
      placeAt (nextSearched memory) p number = some place → TagSearches memory last place) :
    Completes (Between base last) (findModuleTraced memory fuel p) := by
  induction fuel generalizing p with
  | zero =>
    have htype := (htags 0 p rfl).type
    omega
  | succ fuel ih =>
    have htag := htags 0 p rfl
    have htype := htag.type
    rw [completes_findModule_succ]
    refine ⟨⟨hbase, htype⟩, fun hmodule ↦ ⟨by omega, htag.module hmodule⟩, fun hne hother ↦ ?_⟩
    obtain ⟨hsize, hrounds⟩ := htag.leads hne hother
    have hadvance := alignTagSize_ge hrounds
    have hp : p.toNat < 2 ^ 33 := by omega
    have hafter := toNat_tagAfter memory hp
    have hnext : nextSearched memory p = some (tagAfter memory p) := if_pos ⟨hne, hother⟩
    refine ⟨⟨by omega, hsize⟩, ih (by omega) (by omega) fun number place hplace ↦ ?_⟩
    rw [← placeAt_succ hnext] at hplace
    exact htags (number + 1) place hplace

end Walks

/-! ### Both walks -/

/-- `info->total_size`. -/
def totalSize (memory : Memory) (info : Word) : Word32 :=
  load 32 memory info.toNat

/-- The addresses of a block. -/
def InBlock (memory : Memory) (info : Word) : ℕ → Prop :=
  Between info.toNat (info.toNat + (totalSize memory info).toNat)

/-- Both walks end, and every byte that they read is one of the block. -/
structure WalksInside (memory : Memory) (info : Word) : Prop where
  parse : ∃ fuel, Completes (InBlock memory info) (parseMmapTraced memory fuel info)
  search : ∃ fuel, Completes (InBlock memory info) (findModuleTraced memory fuel (info + 8#64))

/-- Each walk finds the tags that it reaches as it needs them. The first is not made from NULL, and
stops at the end of the block; the second does not look at where the block ends. -/
structure TagsLead (memory : Memory) (info : Word) : Prop where
  parse : info ≠ 0#64 → ∀ number place,
    placeAt (nextTag memory (info + (totalSize memory info).setWidth 64)) (info + 8#64) number =
      some place → place < info + (totalSize memory info).setWidth 64 →
        TagParses memory (info.toNat + (totalSize memory info).toNat) place
  search : ∀ number place, placeAt (nextSearched memory) (info + 8#64) number = some place →
    TagSearches memory (info.toNat + (totalSize memory info).toNat) place

/-- For every block at a 32-bit address: both walks end and read only its bytes exactly when each
finds the tags that it reaches as it needs them. -/
theorem walksInside_iff (memory : Memory) (info : Word32)
    (htotal : 8 ≤ (totalSize memory (info.setWidth 64)).toNat) :
    WalksInside memory (info.setWidth 64) ↔ TagsLead memory (info.setWidth 64) := by
  have hinfo : (info.setWidth 64 : Word).toNat < 2 ^ 32 := by
    rw [toNat_setWidth_64]
    exact info.isLt
  generalize (info.setWidth 64 : Word) = start at *
  have hsize := (totalSize memory start).isLt
  have hfirst : (start + 8#64).toNat = start.toNat + 8 :=
    toNat_pointer_add (by rw [BitVec.toNat_ofNat]; omega)
  have hend : (start + (totalSize memory start).setWidth 64).toNat =
      start.toNat + (totalSize memory start).toNat := by
    rw [toNat_pointer_add (by rw [toNat_setWidth_64]; omega), toNat_setWidth_64]
  have hendLt : (start + (totalSize memory start).setWidth 64).toNat < 2 ^ 33 := by omega
  have hnotSmall : ¬ totalSize memory start < 8#32 := by
    rw [BitVec.lt_def, BitVec.toNat_ofNat]
    omega
  have hparse : ∀ fuel, start ≠ 0#64 →
      (Completes (InBlock memory start) (parseMmapTraced memory fuel start) ↔
        Completes (InBlock memory start) (parseTagsTraced memory
          (start + (totalSize memory start).setWidth 64) fuel (start + 8#64) defaultRegion)) := by
    intro fuel hne
    rw [parseMmapTraced, if_neg hne, InBlock, completes_readWord_bind (by decide), ← totalSize,
      if_neg hnotSmall]
    exact and_iff_right ⟨le_rfl, by omega⟩
  constructor
  · rintro ⟨⟨parseFuel, hparses⟩, ⟨searchFuel, hsearches⟩⟩
    refine ⟨fun hne number place hplace hlt ↦ ?_, tags_of_findModule hsearches⟩
    rw [hparse parseFuel hne] at hparses
    exact tags_of_completes hendLt hparses number place hplace hlt
  · rintro ⟨hparses, hsearches⟩
    refine ⟨?_, (totalSize memory start).toNat, completes_findModule (by omega) (by omega)
      (by omega) hsearches⟩
    by_cases hnull : start = 0#64
    · exact ⟨0, by rw [parseMmapTraced, if_pos hnull]; exact (completes_pure _).mpr trivial⟩
    · refine ⟨(totalSize memory start).toNat, ?_⟩
      rw [hparse _ hnull]
      exact completes_of_tags hendLt hend (by omega) (by omega) (by omega) (hparses hnull)

/-- A block of 80 bytes at 4096: a memory map with one entry, a module whose tag of 17 bytes is
padded to 24, and the end tag. -/
def mapAndModule : Memory := placeBytes (fun _ ↦ 0#8) 4096
  ([80#8, 0#8, 0#8, 0#8, 0#8, 0#8, 0#8, 0#8] ++
    [6#8, 0#8, 0#8, 0#8, 40#8, 0#8, 0#8, 0#8, 24#8, 0#8, 0#8, 0#8, 0#8, 0#8, 0#8, 0#8] ++
    [0#8, 0#8, 0x10#8, 0#8, 0#8, 0#8, 0#8, 0#8, 0#8, 0#8, 0xF0#8, 7#8, 0#8, 0#8, 0#8, 0#8] ++
    [1#8, 0#8, 0#8, 0#8, 0#8, 0#8, 0#8, 0#8] ++
    [3#8, 0#8, 0#8, 0#8, 17#8, 0#8, 0#8, 0#8, 0#8, 0#8, 0x80#8, 0#8, 0#8, 0x10#8, 0x80#8, 0#8] ++
    List.replicate 8 0#8 ++ [0#8, 0#8, 0#8, 0#8, 8#8, 0#8, 0#8, 0#8])

/-- Both walks end, `parse_mmap` with the entry and the search with the module. -/
theorem walksInside_iff_map : WalksInside mapAndModule 4096#64 ∧
    parseMmap mapAndModule 4096#64 = some ⟨0x100000#64, 0x7F00000#64⟩ ∧
      findModule mapAndModule 80 4104#64 = some (some (0x800000#64, 0x801000#64)) := by
  refine ⟨(walksInside_iff mapAndModule 4096#32 (by decide)).mpr ⟨?_, ?_⟩, by decide +kernel,
    by decide +kernel⟩
  · intro _ number place hplace _
    have hwhere : place = 4104#64 ∨ place = 4144#64 ∨ place = 4168#64 := by
      refine placeAt_rule (motive := fun place ↦ place = 4104#64 ∨ place = 4144#64 ∨
        place = 4168#64) (Or.inl rfl) ?_ hplace
      rintro - later (rfl | rfl | rfl) hnext
      · exact Or.inr (Or.inl (Option.some.inj hnext).symm)
      · exact Or.inr (Or.inr (Option.some.inj hnext).symm)
      · cases hnext
    rcases hwhere with rfl | rfl | rfl
    · refine ⟨by decide, fun _ ↦ ⟨by decide, by decide⟩, fun _ i hi ↦ ?_⟩
      have hsize : (tagSize mapAndModule 4104#64).toNat = 40 := by decide
      have hentry : (entrySize mapAndModule 4104#64).toNat = 24 := by decide
      rw [hsize, hentry] at hi
      obtain rfl : i = 0 := by omega
      exact ⟨by decide, by decide⟩
    · exact ⟨by decide, fun _ ↦ ⟨by decide, by decide⟩, fun hmap ↦ absurd hmap (by decide)⟩
    · exact ⟨by decide, fun hne ↦ absurd rfl hne, fun hmap ↦ absurd hmap (by decide)⟩
  · intro number place hplace
    have hwhere : place = 4104#64 ∨ place = 4144#64 := by
      refine placeAt_rule (motive := fun place ↦ place = 4104#64 ∨ place = 4144#64) (Or.inl rfl) ?_
        hplace
      rintro - later (rfl | rfl) hnext
      · exact Or.inr (Option.some.inj hnext).symm
      · cases hnext
    rcases hwhere with rfl | rfl
    · exact ⟨by decide, fun hmodule ↦ absurd hmodule (by decide),
        fun _ _ ↦ ⟨by decide, by decide⟩⟩
    · exact ⟨by decide, fun _ ↦ by decide, fun _ hne ↦ absurd rfl hne⟩

/-- A block of 16 bytes at 4096, with one tag of a given type and size 0. -/
def sixteenByteBlock (type : Byte) : Memory := fun position ↦
  if position = 4096 then 16#8 else if position = 4104 then type else 0#8

/-- On a block whose first tag has size 0, neither walk ends. -/
theorem walks_not_inside : ¬ ∀ (memory : Memory) (info : Word32),
    8 ≤ (totalSize memory (info.setWidth 64)).toNat → WalksInside memory (info.setWidth 64) := by
  intro hinside
  obtain ⟨-, fuel, hsearch⟩ := hinside (sixteenByteBlock 1#8) 4096#32 (by decide)
  exact not_completes_findModule (by decide) (by decide) (by decide) hsearch

end Colix.Boot
