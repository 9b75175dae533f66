import Colix.Elf.ElfLoader
import Colix.Mm.PmmRefinement

/-!
# A load that fails

The loader frees nothing and unmaps nothing when it gives up: the pages it took for earlier
segments, and for the earlier pages of the segment it gives up at, stay taken and mapped. It gives
up only when the page allocator has no page left, so a load that fails after the checks of the
header has used up every page that was free before. `failedLoad_noTrace` says when a failed load
leaves no trace.
-/

set_option autoImplicit false
set_option relaxedAutoImplicit false

namespace Colix.Elf

open Foundation Mm Initrd

/-! ### The condition -/

/-- The free count, the pages in use and every translation are as they were. -/
structure NoTrace (pml4 : Word) (state next : Memory × TableSupply) : Prop where
  count : pmmFreeCount next.2.pmm = pmmFreeCount state.2.pmm
  used : ∀ page < state.2.pmm.pmmTotalPages.toNat,
    pmmIsUsed next.2.pmm.bitmap (BitVec.ofNat 64 page) =
      pmmIsUsed state.2.pmm.bitmap (BitVec.ofNat 64 page)
  resolves : ∀ virt, vmmResolve pml4 virt next.1 = vmmResolve pml4 virt state.1

theorem NoTrace.refl (pml4 : Word) (state : Memory × TableSupply) : NoTrace pml4 state state :=
  ⟨rfl, fun _ _ ↦ rfl, fun _ ↦ rfl⟩

/-- The segment that a header describes. -/
def segmentAt (pml4 : Word) (memory : Memory) (base phoff : Word) (i : ℕ) : Option Segment :=
  (readPhdr pml4 memory (base + phoff + BitVec.ofNat 64 i * 56#64)).join

/-- A byte of a page table. -/
def TableByte (pml4 : Word) (memory : Memory) (position : ℕ) : Prop :=
  ∃ table index, TableOf memory pml4 table ∧ entryAddress table index ≤ position ∧
    position < entryAddress table index + 8

/-- The ELF header, or a program header, with its size. -/
inductive HeaderAt (pml4 base phoff : Word) (memory : Memory) : Word → ℕ → Prop
  | ehdr : HeaderAt pml4 base phoff memory base 64
  | phdr {i : ℕ} {phnum : BitVec 16}
      (hphnum : readField 16 pml4 memory (base + 56#64) = some phnum) (hi : i < phnum.toNat) :
      HeaderAt pml4 base phoff memory (base + phoff + BitVec.ofNat 64 i * 56#64) 56

/-- A byte of a header. -/
def HeaderByte (pml4 base phoff : Word) (memory : Memory) (position : ℕ) : Prop :=
  ∃ header size, HeaderAt pml4 base phoff memory header size ∧ ∃ k < size, ∃ phys,
    translate memory pml4 (header + BitVec.ofNat 64 k) = some phys ∧ phys.toNat = position

/-- The segments without pages that come before the first that has some have no byte that is copied
into a page table or over a header. -/
def CopiesApart (pml4 : Word) (memory : Memory) (file : Option InitrdFile) : Prop :=
  ∀ f phoff phnum, file = some f → readField 64 pml4 memory (f.data + 32#64) = some phoff →
    readField 16 pml4 memory (f.data + 56#64) = some phnum →
      ∀ i < phnum.toNat, ∀ segment, segmentAt pml4 memory f.data phoff i = some segment →
        (∀ k ≤ i, ∀ earlier, segmentAt pml4 memory f.data phoff k = some earlier →
          earlier.pages = 0) →
          ∀ j < max segment.filesz.toNat segment.memsz.toNat, ∀ phys,
            translate memory pml4 (segment.vaddr + BitVec.ofNat 64 j) = some phys →
              ¬ TableByte pml4 memory phys.toNat ∧
                ¬ HeaderByte pml4 f.data phoff memory phys.toNat

/-! ### The page allocator during a load -/

/-- The allocator is in a state of a run from `pmm_init`. -/
def PmmReached (memBase memSize : Word) (pmm : Pmm) : Prop :=
  ∃ events, (pmmSystem memBase memSize).Run events pmm

section Allocator

variable {memBase memSize page pml4 base phoff : Word} {pmm pmmNext : Pmm} {segment : Segment}
  {state next : Memory × TableSupply}

theorem PmmReached.alloc (hreached : PmmReached memBase memSize pmm)
    (halloc : pmmAlloc pmm = (page, pmmNext)) : PmmReached memBase memSize pmmNext := by
  obtain ⟨events, hrun⟩ := hreached
  have hstep := hrun.step (alloc_step memBase memSize pmm)
  rw [halloc] at hstep
  exact ⟨_, hstep⟩

theorem PmmReached.allocTable {memory zeroed : Memory} {supply supplyNext : TableSupply}
    {new : Word}
    (hreached : PmmReached memBase memSize supply.pmm)
    (halloc : allocTable memory supply = some (new, zeroed, supplyNext)) :
    PmmReached memBase memSize supplyNext.pmm := by
  rw [Mm.allocTable] at halloc
  split_ifs at halloc with hpool
  · simp only [Option.some.injEq, Prod.mk.injEq] at halloc
    rw [← halloc.2.2]
    exact hreached
  · rcases hpage : pmmAlloc supply.pmm with ⟨page, pmm⟩
    simp only [hpage] at halloc
    split_ifs at halloc
    simp only [Option.some.injEq, Prod.mk.injEq] at halloc
    rw [← halloc.2.2]
    exact hreached.alloc hpage

section Region

variable (hbase : regionBase memBase ≠ 0#64)
  (hfits : (regionBase memBase).toNat + regionPages memSize * 4096 ≤ 2 ^ 64)

include hbase hfits

/-- `pmm_alloc` fails exactly when the free count is zero, and then changes nothing. -/
theorem PmmReached.null_iff (hreached : PmmReached memBase memSize pmm) :
    ((pmmAlloc pmm).1 = 0#64 ↔ pmmFreeCount pmm = 0#64) ∧
      (pmmFreeCount pmm = 0#64 → pmmAlloc pmm = (0#64, pmm)) := by
  obtain ⟨events, hrun⟩ := hreached
  obtain ⟨hregion, hinv⟩ := PmmInvariant.of_run hbase hfits hrun
  have hnone := outstanding_eq_range_iff hinv
  rw [hregion.total_eq] at hnone
  have hnull : (pmmAlloc pmm).1 = 0#64 ↔ pmmFreeCount pmm = 0#64 :=
    (pmmAlloc_null_iff hregion hinv).trans hnone
  refine ⟨hnull, fun hzero ↦ ?_⟩
  rcases pmmAlloc_cases hinv.toScanReady with ⟨hsame, -⟩ | ⟨number, hnumber, -, htake⟩
  · exact hsame
  · -- a page of the region is not NULL
    have hresult := hnull.mpr hzero
    rw [htake, hregion.base_eq] at hresult
    rw [hregion.total_eq] at hnumber
    exact absurd hresult (hregion.pageAddress hnumber).2.1

/-- An iteration of the loop that maps the pages of a segment leaves the loop only when no page is
free. -/
theorem PmmReached.mapPage (hreached : PmmReached memBase memSize state.2.pmm) {p : ℕ}
    {outcome : (Memory × TableSupply) ⊕ (Memory × TableSupply)}
    (hmap : mapPage pml4 segment p state = some outcome) :
    Sum.elim (fun exit ↦ pmmFreeCount exit.2.pmm = 0#64)
      (fun next ↦ PmmReached memBase memSize next.2.pmm) outcome := by
  rw [Elf.mapPage] at hmap
  rcases halloc : pmmAllocPage state.2.pmm with ⟨pa, pmm⟩
  rw [pmmAllocPage] at halloc
  simp only [pmmAllocPage, halloc] at hmap
  obtain ⟨hnull, hsame⟩ := hreached.null_iff hbase hfits
  split_ifs at hmap with hzero
  · have hcount := hnull.mp (by rw [halloc]; exact hzero)
    rw [hsame hcount, Prod.mk.injEq] at halloc
    rw [Option.some.injEq] at hmap
    subst hmap
    change pmmFreeCount pmm = 0#64
    rw [← halloc.2]
    exact hcount
  · rw [Option.map_eq_some_iff] at hmap
    obtain ⟨⟨memory, supply⟩, hvmm, rfl⟩ := hmap
    exact vmmMap_supply (motive := fun supply ↦ PmmReached memBase memSize supply.pmm)
      (fun _ _ _ _ _ hbefore hnew ↦ hbefore.allocTable hnew) (hreached.alloc halloc) hvmm

/-- An iteration of the loop over the headers fails only when no page is free. -/
theorem PmmReached.loadSegment (hreached : PmmReached memBase memSize state.2.pmm) {i : ℕ}
    {outcome : (Bool × Memory × TableSupply) ⊕ (Memory × TableSupply)}
    (hbody : loadSegment pml4 base phoff i state = some outcome) :
    Sum.elim (fun exit ↦ exit.1 = false → pmmFreeCount exit.2.2.pmm = 0#64)
      (fun next ↦ PmmReached memBase memSize next.2.pmm) outcome := by
  have hloop : ∀ segment : Segment, ∀ outcome,
      leavingLoop (Elf.mapPage pml4 segment) segment.pages state = some outcome →
        Sum.elim (fun exit ↦ pmmFreeCount exit.2.pmm = 0#64)
          (fun next ↦ PmmReached memBase memSize next.2.pmm) outcome := by
    intro segment outcome hloop
    refine leavingLoop_rule (motive := fun _ (state : Memory × TableSupply) ↦
      PmmReached memBase memSize state.2.pmm) hreached ?_ hloop
    exact fun p _ before next _ hbefore hmap ↦ hbefore.mapPage hbase hfits hmap
  cases loadSegment_cases hbody with
  | done => exact fun hfalse : true = false ↦ Bool.noConfusion hfalse
  | skipped => exact hreached
  | exhausted hphnum hi hphdr hmap => exact fun _ ↦ hloop _ _ hmap
  | loaded hphnum hi hphdr hmap hfill => exact hloop _ _ hmap

/-- The loop over the headers fails only when no page is free. -/
theorem PmmReached.loadSegments (hreached : PmmReached memBase memSize state.2.pmm)
    (hloop : loadSegments pml4 base phoff state = some (Sum.inl (false, next))) :
    pmmFreeCount next.2.pmm = 0#64 := by
  rw [Elf.loadSegments] at hloop
  have hleft : Sum.elim (fun exit : Bool × Memory × TableSupply ↦
      exit.1 = false → pmmFreeCount exit.2.2.pmm = 0#64)
      (fun next : Memory × TableSupply ↦ PmmReached memBase memSize next.2.pmm)
        (Sum.inl (false, next)) :=
    leavingLoop_rule (motive := fun _ (state : Memory × TableSupply) ↦
      PmmReached memBase memSize state.2.pmm) hreached
      (fun i _ before next _ hbefore hbody ↦ hbefore.loadSegment hbase hfits hbody) hloop
  exact hleft rfl

end Region

end Allocator

/-! ### A load with no free page -/

section Exhausted

variable {pml4 base phoff : Word} {segment : Segment} {state next : Memory × TableSupply}

/-- The page tables and the headers are as they were. -/
structure HeadersKept (pml4 base phoff : Word) (memory next : Memory) : Prop where
  tables : ∀ position, TableByte pml4 memory position → next position = memory position
  headers : ∀ position, HeaderByte pml4 base phoff memory position →
    next position = memory position

section Kept

variable {memory filled : Memory} {address virt : Word}

/-- The tables are found on the same paths. -/
theorem HeadersKept.tableAt (hkept : HeadersKept pml4 base phoff memory filled) :
    ∀ path : List TableIndex, path.length ≤ 4 →
      Mm.tableAt filled pml4 path = Mm.tableAt memory pml4 path :=
  descend_congr fun path table hlength hreach index ↦ congrArg childOf
    (load_congr fun position hge hlt ↦
      hkept.tables position ⟨table, index, ⟨path, by omega, hreach⟩, hge, hlt⟩)

theorem HeadersKept.translate (hkept : HeadersKept pml4 base phoff memory filled) (virt : Word) :
    Elf.translate filled pml4 virt = Elf.translate memory pml4 virt := by
  rw [Elf.translate, Elf.translate, pageMap, pageMap, hkept.tableAt _ (le_refl 4)]

/-- A field of a header reads as before. -/
theorem HeadersKept.readField (hkept : HeadersKept pml4 base phoff memory filled) {header : Word}
    {size w offset : ℕ} (hheader : HeaderAt pml4 base phoff memory header size)
    (hfits : offset + w / 8 ≤ size) :
    Elf.readField w pml4 filled (header + BitVec.ofNat 64 offset) =
      Elf.readField w pml4 memory (header + BitVec.ofNat 64 offset) := by
  refine congrArg (Option.map (BitVec.ofNat w)) (readNat_congr fun k hk ↦ ?_)
  rw [BitVec.add_assoc, ← BitVec.ofNat_add, readByte, readByte, hkept.translate]
  cases htranslate : Elf.translate memory pml4 (header + BitVec.ofNat 64 (offset + k)) with
  | none => rfl
  | some phys =>
    exact congrArg some (hkept.headers _
      ⟨header, size, hheader, offset + k, by omega, phys, htranslate, rfl⟩)

/-- A program header reads as before. -/
theorem HeadersKept.readPhdr (hkept : HeadersKept pml4 base phoff memory filled) {header : Word}
    (hheader : HeaderAt pml4 base phoff memory header 56) :
    Elf.readPhdr pml4 filled header = Elf.readPhdr pml4 memory header := by
  have hfield : ∀ offset ≤ 48, Elf.readField 64 pml4 filled (header + BitVec.ofNat 64 offset) =
      Elf.readField 64 pml4 memory (header + BitVec.ofNat 64 offset) :=
    fun offset hoffset ↦ hkept.readField hheader (by omega)
  have htype : Elf.readField 32 pml4 filled (header + BitVec.ofNat 64 0) =
      Elf.readField 32 pml4 memory (header + BitVec.ofNat 64 0) :=
    hkept.readField hheader (by decide)
  rw [show header + BitVec.ofNat 64 0 = header from BitVec.add_zero header] at htype
  rw [Elf.readPhdr, Elf.readPhdr, htype, hfield 16 (by decide), hfield 40 (by decide),
    hfield 32 (by decide), hfield 8 (by decide)]

/-- A store elsewhere. -/
theorem HeadersKept.write (hkept : HeadersKept pml4 base phoff memory filled) {value : Byte}
    {after : Memory} (hapart : ∀ phys, Elf.translate memory pml4 address = some phys →
      ¬ TableByte pml4 memory phys.toNat ∧ ¬ HeaderByte pml4 base phoff memory phys.toNat)
    (hwrite : writeByte pml4 filled address value = some after) :
    HeadersKept pml4 base phoff memory after := by
  rw [writeByte, Option.map_eq_some_iff] at hwrite
  obtain ⟨phys, htranslate, rfl⟩ := hwrite
  rw [hkept.translate] at htranslate
  obtain ⟨htable, hheader⟩ := hapart phys htranslate
  have hother : ∀ position, position ≠ phys.toNat →
      store filled phys.toNat value position = filled position :=
    fun position hne ↦ store_apply_of_disjoint value (by omega)
  constructor
  · intro position hposition
    rw [hother position fun hsame ↦ htable (hsame ▸ hposition)]
    exact hkept.tables position hposition
  · intro position hposition
    rw [hother position fun hsame ↦ hheader (hsame ▸ hposition)]
    exact hkept.headers position hposition

/-- Filling a segment whose bytes go elsewhere. -/
theorem HeadersKept.fillSegment (hkept : HeadersKept pml4 base phoff memory filled)
    (hapart : ∀ j < max segment.filesz.toNat segment.memsz.toNat, ∀ phys,
      Elf.translate memory pml4 (segment.vaddr + BitVec.ofNat 64 j) = some phys →
        ¬ TableByte pml4 memory phys.toNat ∧ ¬ HeaderByte pml4 base phoff memory phys.toNat)
    {after : Memory} (hfill : Elf.fillSegment pml4 base segment filled = some after) :
    HeadersKept pml4 base phoff memory after := by
  rw [Elf.fillSegment, Option.bind_eq_some_iff] at hfill
  obtain ⟨copied, hcopy, hclear⟩ := hfill
  have hcopied : HeadersKept pml4 base phoff memory copied := by
    refine countedLoop_rule (motive := fun _ ↦ HeadersKept pml4 base phoff memory) hkept ?_ hcopy
    intro j hj state next _ hstate hbody
    rw [copyByte, Option.bind_eq_some_iff] at hbody
    obtain ⟨value, -, hwrite⟩ := hbody
    exact hstate.write (hapart j (lt_max_of_lt_left hj)) hwrite
  refine countedLoop_rule (motive := fun _ ↦ HeadersKept pml4 base phoff memory) hcopied ?_ hclear
  intro j hj state next _ hstate hbody
  exact hstate.write
    (hapart (segment.filesz.toNat + j) (lt_max_of_lt_right (by omega))) hbody

end Kept

/-- Without a free page the first page of a segment ends the loop. -/
theorem mapPages_of_exhausted {memory : Memory} {supply : TableSupply}
    (hnone : pmmAlloc supply.pmm = (0#64, supply.pmm)) (hpages : segment.pages ≠ 0) :
    leavingLoop (mapPage pml4 segment) segment.pages (memory, supply) =
      some (Sum.inl (memory, supply)) := by
  refine leavingLoop_of_left (show 1 ≤ segment.pages by omega) ?_
  rw [leavingLoop, leavingLoop]
  simp only [mapPage, pmmAllocPage, hnone, if_true]

/-- The header with a number. -/
theorem segmentAt_eq_some {memory : Memory} {i : ℕ} :
    segmentAt pml4 memory base phoff i = some segment ↔
      readPhdr pml4 memory (base + phoff + BitVec.ofNat 64 i * 56#64) = some (some segment) := by
  rw [segmentAt, Option.join_eq_some_iff]

/-- Without a free page the loop over the headers copies segments without pages until it comes to
one that has some. When their bytes go elsewhere, the page tables and the headers stay. -/
theorem loadSegments_of_exhausted (hnone : pmmAlloc state.2.pmm = (0#64, state.2.pmm))
    (hapart : ∀ phnum, readField 16 pml4 state.1 (base + 56#64) = some phnum →
      ∀ i < phnum.toNat, ∀ segment, segmentAt pml4 state.1 base phoff i = some segment →
        (∀ k ≤ i, ∀ earlier, segmentAt pml4 state.1 base phoff k = some earlier →
          earlier.pages = 0) →
          ∀ j < max segment.filesz.toNat segment.memsz.toNat, ∀ phys,
            translate state.1 pml4 (segment.vaddr + BitVec.ofNat 64 j) = some phys →
              ¬ TableByte pml4 state.1 phys.toNat ∧
                ¬ HeaderByte pml4 base phoff state.1 phys.toNat)
    {done : Bool} (hloop : loadSegments pml4 base phoff state = some (Sum.inl (done, next))) :
    next.2 = state.2 ∧ HeadersKept pml4 base phoff state.1 next.1 := by
  rw [loadSegments] at hloop
  have hleft : Sum.elim (fun exit : Bool × Memory × TableSupply ↦
        exit.2.2 = state.2 ∧ HeadersKept pml4 base phoff state.1 exit.2.1)
      (fun reached : Memory × TableSupply ↦ reached.2 = state.2 ∧
        HeadersKept pml4 base phoff state.1 reached.1 ∧ ∀ k < 2 ^ 16, ∀ earlier,
          segmentAt pml4 state.1 base phoff k = some earlier → earlier.pages = 0)
            (Sum.inl (done, next)) := by
    refine leavingLoop_rule (motive := fun i reached ↦ reached.2 = state.2 ∧
      HeadersKept pml4 base phoff state.1 reached.1 ∧ ∀ k < i, ∀ earlier,
        segmentAt pml4 state.1 base phoff k = some earlier → earlier.pages = 0)
      ⟨rfl, ⟨fun _ _ ↦ rfl, fun _ _ ↦ rfl⟩, fun k hk ↦ absurd hk (Nat.not_lt_zero k)⟩ ?_ hloop
    rintro i - ⟨memory, supply⟩ outcome - ⟨hsame, hkept, hbefore⟩ hbody
    obtain rfl : supply = state.2 := hsame
    have hnext : (∀ earlier, segmentAt pml4 state.1 base phoff i = some earlier →
        earlier.pages = 0) → ∀ k < i + 1, ∀ earlier,
          segmentAt pml4 state.1 base phoff k = some earlier → earlier.pages = 0 := by
      intro hhere k hk earlier hearlier
      rcases Nat.lt_succ_iff_lt_or_eq.mp hk with hlt | rfl
      · exact hbefore k hlt earlier hearlier
      · exact hhere earlier hearlier
    -- the header reads as at the start
    have hcount : ∀ phnum, readField 16 pml4 memory (base + 56#64) = some phnum →
        readField 16 pml4 state.1 (base + 56#64) = some phnum := by
      intro phnum hread
      have hfield := hkept.readField (HeaderAt.ehdr) (show 56 + 16 / 8 ≤ 64 by decide)
      rwa [show BitVec.ofNat 64 56 = (56#64 : Word) from rfl, hread, eq_comm] at hfield
    have hheader : ∀ {phnum segment}, readField 16 pml4 memory (base + 56#64) = some phnum →
        i < phnum.toNat →
          readPhdr pml4 memory (base + phoff + BitVec.ofNat 64 i * 56#64) = segment →
            readPhdr pml4 state.1 (base + phoff + BitVec.ofNat 64 i * 56#64) = segment := by
      intro phnum segment hread hi hphdr
      rw [← hphdr, hkept.readPhdr (HeaderAt.phdr (hcount phnum hread) hi)]
    cases loadSegment_cases hbody with
    | done => exact ⟨rfl, hkept⟩
    | skipped hphnum hi hphdr =>
      refine ⟨rfl, hkept, hnext fun earlier hearlier ↦ ?_⟩
      rw [segmentAt_eq_some, hheader hphnum hi hphdr] at hearlier
      cases hearlier
    | @exhausted _ segment exit _ _ hphdr hmap =>
      by_cases hpages : segment.pages = 0
      · rw [hpages] at hmap
        cases hmap
      · rw [mapPages_of_exhausted hnone hpages] at hmap
        cases hmap
        exact ⟨rfl, hkept⟩
    | @loaded phnum segment _ filled supply hphnum hi hphdr hmap hfill =>
      have hsegment := segmentAt_eq_some.mpr (hheader hphnum hi hphdr)
      by_cases hpages : segment.pages = 0
      · have hall := hnext fun earlier hearlier ↦ by
          rw [hsegment, Option.some.injEq] at hearlier
          rw [← hearlier, hpages]
        have happly := hapart phnum (hcount phnum hphnum) i hi segment hsegment fun k hk ↦
          hall k (Nat.lt_succ_of_le hk)
        rw [hpages, leavingLoop, Option.some.injEq, Sum.inr.injEq] at hmap
        cases hmap
        exact ⟨rfl, hkept.fillSegment happly hfill, hall⟩
      · rw [mapPages_of_exhausted hnone hpages] at hmap
        cases hmap
  exact hleft

end Exhausted

/-! ### Failed loads -/

section Failed

variable {pml4 : Word} {file : Option InitrdFile} {state next : Memory × TableSupply}

/-- A file that is rejected by its header changes nothing. -/
theorem elfLoad_of_rejects {result : Option Word} (hrejects : RejectsHeader pml4 state.1 file)
    (hload : elfLoadFromInitrd pml4 file state = some (result, next)) : next = state := by
  rcases elfLoad_inv hload with ⟨-, -, hsame⟩ | ⟨f, phoff, rfl, haccepts, -⟩
  · exact hsame
  · exact absurd hrejects haccepts.not_rejects

/-- A load that fails rejected the file by its header, or gave up in the loop over the headers. -/
theorem elfLoad_failed (hload : elfLoadFromInitrd pml4 file state = some (none, next)) :
    RejectsHeader pml4 state.1 file ∨ ∃ f phoff, file = some f ∧
      readField 64 pml4 state.1 (f.data + 32#64) = some phoff ∧
        loadSegments pml4 f.data phoff state = some (Sum.inl (false, next)) := by
  rcases elfLoad_inv hload with ⟨hrejects, -, -⟩ | ⟨f, phoff, hfile, haccepts, hreturn⟩
  · exact .inl hrejects
  rcases returnEntry_inv hreturn with ⟨-, hleft⟩ | ⟨entry, hentry, -, -⟩
  · exact .inr ⟨f, phoff, hfile, haccepts.phoff, hleft⟩
  · cases hentry

/-- A load that fails leaves no trace when it fails before a page is taken: the header is rejected,
or no page is free and the segments without pages copy nothing into a page table or over a header.
Failing with a free page it always leaves one. Assumes: the region of the page allocator does not
start at address zero and does not wrap. -/
theorem failedLoad_noTrace {memBase memSize : Word} (hbase : regionBase memBase ≠ 0#64)
    (hfits : (regionBase memBase).toNat + regionPages memSize * 4096 ≤ 2 ^ 64)
    (hreached : PmmReached memBase memSize state.2.pmm)
    (hload : elfLoadFromInitrd pml4 file state = some (none, next)) :
    (RejectsHeader pml4 state.1 file ∨
        (pmmFreeCount state.2.pmm = 0#64 ∧ CopiesApart pml4 state.1 file) →
      NoTrace pml4 state next) ∧
      (NoTrace pml4 state next →
        RejectsHeader pml4 state.1 file ∨ pmmFreeCount state.2.pmm = 0#64) := by
  refine ⟨?_, fun htrace ↦ ?_⟩
  · rintro (hrejects | ⟨hcount, hapart⟩)
    · rw [elfLoad_of_rejects hrejects hload]
      exact NoTrace.refl pml4 state
    · rcases elfLoad_failed hload with hrejects | ⟨f, phoff, hfile, hphoff, hloop⟩
      · rw [elfLoad_of_rejects hrejects hload]
        exact NoTrace.refl pml4 state
      · obtain ⟨hsupply, hkept⟩ := loadSegments_of_exhausted
          ((hreached.null_iff hbase hfits).2 hcount)
          (fun phnum hphnum ↦ hapart f phoff phnum hfile hphoff hphnum) hloop
        refine ⟨by rw [hsupply], fun _ _ ↦ by rw [hsupply], fun virt ↦ ?_⟩
        rw [vmmResolve_eq, vmmResolve_eq, hkept.tableAt _ (le_refl 4)]
  · refine (elfLoad_failed hload).imp_right ?_
    rintro ⟨f, phoff, -, -, hloop⟩
    rw [← htrace.count]
    exact hreached.loadSegments hbase hfits hloop

end Failed

/-! ### A machine that maps its first 2 MiB to themselves -/

/-- Its tables, at 0x1000, 0x2000, 0x3000 and 0x4000. -/
def lowTables : Memory := fun position ↦
  let number :=
    if position / 8 = 0x200 then 0x2003
    else if position / 8 = 0x400 then 0x3003
    else if position / 8 = 0x600 then 0x4003
    else if 0x4000 ≤ position ∧ position < 0x5000 then (position - 0x4000) / 8 * 0x1000 + 3
    else 0
  BitVec.ofNat 8 (number / 256 ^ (position % 8))

/-- A word, lowest byte first. -/
def wordBytes (word : Word) : List Byte :=
  (List.range 8).map fun i ↦ (word >>> (8 * i)).setWidth 8

/-- An ELF header whose program headers follow it. -/
def elfHeader (entry : Word) (phnum : Byte) : List Byte :=
  [0x7F#8, 0x45#8, 0x4C#8, 0x46#8] ++ List.replicate 12 0#8 ++
    [2#8, 0#8, 0x3E#8, 0#8, 1#8, 0#8, 0#8, 0#8] ++ wordBytes entry ++ wordBytes 64#64 ++
    List.replicate 12 0#8 ++ [64#8, 0#8, 56#8, 0#8, phnum, 0#8] ++ List.replicate 6 0#8

/-- A program header of type `PT_LOAD`. -/
def loadHeader (segment : Segment) : List Byte :=
  [1#8, 0#8, 0#8, 0#8, 6#8, 0#8, 0#8, 0#8] ++ wordBytes segment.offset ++
    wordBytes segment.vaddr ++ wordBytes segment.vaddr ++ wordBytes segment.filesz ++
    wordBytes segment.memsz ++ wordBytes 0x1000#64

/-- A page allocator with the two pages from 2 MiB on, as `pmm_init` leaves it. -/
def twoPages : Pmm where
  bitmap := fun word ↦ if word = 0 then ~~~3#64 else if word < 2048 then ~~~0#64 else 0#64
  pmmBase := 0x200000#64
  pmmTotalPages := 2#64
  pmmFreePages := 2#64
  pmmLastAlloc := 0#64

theorem pmmInit_twoPages : pmmInit Pmm.bss 0x200000#64 0x2000#64 = twoPages := by
  have hfill : (List.range bitmapSize).foldl (fun bitmap i ↦ Function.update bitmap i (~~~0#64))
      (fun _ ↦ 0#64) = fun word ↦ if word < 2048 then ~~~0#64 else 0#64 := by
    funext word
    split_ifs with hword
    · exact foldl_fill _ 2048 word hword
    · exact foldl_range_rule (motive := fun _ (bitmap : ℕ → Word) ↦ bitmap word = 0#64) rfl
        fun i hi bitmap hbitmap ↦ by
          have hi : i < 2048 := hi
          rw [Function.update_of_ne (by omega), hbitmap]
  have hbitmap : (pmmInit Pmm.bss 0x200000#64 0x2000#64).bitmap =
      pmmSetFree (pmmSetFree ((List.range bitmapSize).foldl
        (fun bitmap i ↦ Function.update bitmap i (~~~0#64)) fun _ ↦ 0#64) 0#64) 1#64 := rfl
  have hsame : (pmmInit Pmm.bss 0x200000#64 0x2000#64).bitmap = twoPages.bitmap := by
    rw [hbitmap, hfill]
    funext word
    by_cases hzero : word = 0
    · subst hzero
      decide
    · have hne : word ≠ ((1#64 : Word) / 64#64).toNat := hzero
      have hne' : word ≠ ((0#64 : Word) / 64#64).toNat := hzero
      rw [pmmSetFree, Function.update_of_ne hne, pmmSetFree, Function.update_of_ne hne']
      exact (if_neg hzero).symm
  have hrest : pmmInit Pmm.bss 0x200000#64 0x2000#64 =
      { twoPages with bitmap := (pmmInit Pmm.bss 0x200000#64 0x2000#64).bitmap } := rfl
  rw [hrest, hsame]

/-- The machine with a file at 0x10000. -/
def lowMachine (image : List Byte) : Memory × TableSupply :=
  (placeBytes lowTables 0x10000 image, ⟨0x100000#64, 0#64, twoPages⟩)

theorem pmmReached_twoPages : PmmReached 0x200000#64 0x2000#64 twoPages :=
  ⟨[], TransitionSystem.Run.start ⟨Pmm.bss, pmmInit_twoPages.symm⟩⟩

/-- A file of one segment of three pages. -/
def threePageImage : List Byte :=
  elfHeader 0x180000#64 1#8 ++ loadHeader ⟨0x180000#64, 0x2001#64, 0#64, 0#64⟩

/-- Its header is in order. -/
theorem threePageImage_header : AcceptsHeader 0x1000#64 (lowMachine threePageImage).1
    ⟨0#64, 120#32, 0x10000#64⟩ 64#64 := by
  refine ⟨by decide, ?_, ?_, ?_⟩ <;> decide +kernel

/-- It does not load from two free pages. -/
theorem threePageImage_fails : ∃ next, elfLoadFromInitrd 0x1000#64
    (some ⟨0#64, 120#32, 0x10000#64⟩) (lowMachine threePageImage) = some (none, next) := by
  have hfirst : (leavingLoop (loadSegment 0x1000#64 0x10000#64 64#64) 1
      (lowMachine threePageImage)).map
        (Sum.elim (fun exit ↦ some exit.1) fun _ ↦ none) = some (some false) := by decide +kernel
  rw [Option.map_eq_some_iff] at hfirst
  obtain ⟨⟨done, next⟩ | reached, hloop, hexit⟩ := hfirst
  · obtain rfl : done = false := Option.some.inj hexit
    have hsegments : loadSegments 0x1000#64 0x10000#64 64#64 (lowMachine threePageImage) =
        some (Sum.inl (false, next)) := leavingLoop_of_left (show 1 ≤ 2 ^ 16 by decide) hloop
    refine ⟨next, ?_⟩
    rw [threePageImage_header.elfLoad, hsegments, returnEntry]
  · cases hexit

/-- The tables of `lowMachine`, by their depth. -/
theorem lowTables_child : ∀ depth < 3, ∀ index : TableIndex,
    childOf (entry lowTables (BitVec.ofNat 64 (0x1000 * (depth + 1))) index) =
      if index = 0#9 then some (BitVec.ofNat 64 (0x1000 * (depth + 2))) else none := by
  decide +kernel

/-- They lie below 0x5000, whatever the file. -/
theorem tableByte_lowMachine (image : List Byte) {position : ℕ}
    (htable : TableByte 0x1000#64 (lowMachine image).1 position) : position < 0x5000 := by
  have hdepth : ∀ path : List TableIndex, path.length ≤ 3 → ∀ table,
      tableAt lowTables 0x1000#64 path = some table →
        table = BitVec.ofNat 64 (0x1000 * (path.length + 1)) := by
    intro path
    induction path using List.reverseRecOn with
    | nil => exact fun _ table hreach ↦ (Option.some.inj hreach).symm
    | append_singleton path index ih =>
      intro hlength table hreach
      rw [List.length_append, List.length_singleton] at hlength ⊢
      obtain ⟨parent, hparent, hchild⟩ := exists_descend_of_snoc hreach
      rw [ih (by omega) parent hparent, lowTables_child _ (by omega)] at hchild
      split_ifs at hchild
      exact (Option.some.inj hchild).symm
  have hbelow : ∀ path : List TableIndex, path.length ≤ 3 → ∀ table,
      tableAt lowTables 0x1000#64 path = some table → ∀ index,
        entryAddress table index + 8 ≤ 0x5000 := by
    intro path hlength table hreach index
    obtain rfl := hdepth path hlength table hreach
    have hnumber : (BitVec.ofNat 64 (0x1000 * (path.length + 1))).toNat =
        0x1000 * (path.length + 1) := by rw [BitVec.toNat_ofNat]; omega
    rw [entryAddress_eq (by rw [PageAligned, hnumber]; omega), hnumber]
    omega
  have hsame : ∀ path : List TableIndex, path.length ≤ 4 →
      tableAt (lowMachine image).1 0x1000#64 path = tableAt lowTables 0x1000#64 path :=
    descend_congr fun path table hlength hreach index ↦ congrArg childOf
      (load_congr fun position _ hlt ↦ if_neg fun hfile ↦ by
        have := hbelow path (by omega) table hreach index
        omega)
  obtain ⟨table, index, ⟨path, hlength, hreach⟩, -, hlt⟩ := htable
  have := hbelow path hlength table ((hsame path (by omega)).symm.trans hreach) index
  omega

/-- A file of two segments: the first has no page and eight bytes, copied to 0x90000. -/
def pagelessImage : List Byte :=
  elfHeader 0x180000#64 2#8 ++ loadHeader ⟨0x90000#64, 0#64, 8#64, 0#64⟩ ++
    loadHeader ⟨0x180000#64, 0x2001#64, 0#64, 0#64⟩

/-- The machine with this file when both pages are taken. -/
def spentMachine : Memory × TableSupply :=
  ((lowMachine pagelessImage).1, ⟨0x100000#64, 0#64, (pmmAlloc (pmmAlloc twoPages).2).2⟩)

theorem pmmReached_spent : PmmReached 0x200000#64 0x2000#64 spentMachine.2.pmm :=
  (pmmReached_twoPages.alloc rfl).alloc rfl

/-- Its headers. -/
theorem pagelessImage_header :
    AcceptsHeader 0x1000#64 spentMachine.1 ⟨0#64, 176#32, 0x10000#64⟩ 64#64 ∧
      readField 16 0x1000#64 spentMachine.1 (0x10000#64 + 56#64) = some 2#16 ∧
        segmentAt 0x1000#64 spentMachine.1 0x10000#64 64#64 0 =
            some ⟨0x90000#64, 0#64, 8#64, 0#64⟩ ∧
          segmentAt 0x1000#64 spentMachine.1 0x10000#64 64#64 1 =
            some ⟨0x180000#64, 0x2001#64, 0#64, 0#64⟩ := by
  refine ⟨⟨by decide, ?_, ?_, ?_⟩, ?_⟩ <;> decide +kernel

/-- It does not load, but the bytes of its first segment are there. -/
theorem pagelessImage_fails : ∃ next, elfLoadFromInitrd 0x1000#64
    (some ⟨0#64, 176#32, 0x10000#64⟩) spentMachine = some (none, next) ∧
      spentMachine.1 0x90000 = 0#8 ∧ next.1 0x90000 = 0x7F#8 := by
  have hfirst : (leavingLoop (loadSegment 0x1000#64 0x10000#64 64#64) 2 spentMachine).map
        (Sum.elim (fun exit ↦ some (exit.1, exit.2.1 0x90000)) fun _ ↦ none) =
          some (some (false, 0x7F#8)) := by decide +kernel
  rw [Option.map_eq_some_iff] at hfirst
  obtain ⟨⟨done, next⟩ | reached, hloop, hexit⟩ := hfirst
  · simp only [Sum.elim_inl, Option.some.injEq, Prod.mk.injEq] at hexit
    obtain ⟨rfl, hbyte⟩ := hexit
    have hsegments : loadSegments 0x1000#64 0x10000#64 64#64 spentMachine =
        some (Sum.inl (false, next)) := leavingLoop_of_left (show 2 ≤ 2 ^ 16 by decide) hloop
    refine ⟨next, ?_, by decide +kernel, hbyte⟩
    rw [pagelessImage_header.1.elfLoad, hsegments, returnEntry]
  · cases hexit

/-- The bytes of its first segment are copied apart from the tables and the headers. -/
theorem pagelessImage_apart : CopiesApart 0x1000#64 spentMachine.1
    (some ⟨0#64, 176#32, 0x10000#64⟩) := by
  obtain ⟨haccepts, hcount, hfirst, hsecond⟩ := pagelessImage_header
  rintro f phoff phnum hfile hphoff hphnum i hi segment hsegment hearlier j hj phys htranslate
  obtain rfl : _ = f := Option.some.inj hfile
  obtain rfl : 64#64 = phoff := Option.some.inj (haccepts.phoff.symm.trans hphoff)
  obtain rfl : 2#16 = phnum := Option.some.inj (hcount.symm.trans hphnum)
  obtain rfl : i = 0 := by
    rcases Nat.eq_zero_or_pos i with hzero | hpos
    · exact hzero
    · exact absurd (hearlier 1 hpos _ hsecond) (by decide)
  obtain rfl : _ = segment := Option.some.inj (hfirst.symm.trans hsegment)
  -- both are translated to themselves
  have hcopied : ∀ j < 8, translate spentMachine.1 0x1000#64 (0x90000#64 + BitVec.ofNat 64 j) =
      some (BitVec.ofNat 64 (0x90000 + j)) := by decide +kernel
  have hheaders : ∀ k < 176, translate spentMachine.1 0x1000#64
      (0x10000#64 + BitVec.ofNat 64 k) = some (BitVec.ofNat 64 (0x10000 + k)) := by
    decide +kernel
  have hj : j < 8 := hj
  obtain rfl : _ = phys := Option.some.inj ((hcopied j hj).symm.trans htranslate)
  have hposition : (BitVec.ofNat 64 (0x90000 + j)).toNat = 0x90000 + j := by
    rw [BitVec.toNat_ofNat]
    omega
  rw [hposition]
  refine ⟨fun htable ↦ ?_, ?_⟩
  · have := tableByte_lowMachine pagelessImage htable
    omega
  · rintro ⟨header, size, hheader, k, hk, phys, hphys, hsame⟩
    have hoffset : ∃ offset < 176, header + BitVec.ofNat 64 k =
        0x10000#64 + BitVec.ofNat 64 offset := by
      cases hheader with
      | ehdr => exact ⟨k, by omega, rfl⟩
      | @phdr i phnum hphnum hi =>
        obtain rfl : 2#16 = phnum := Option.some.inj (hcount.symm.trans hphnum)
        have hi : i < 2 := hi
        refine ⟨64 + i * 56 + k, by omega, ?_⟩
        apply BitVec.eq_of_toNat_eq
        simp only [BitVec.toNat_add, BitVec.toNat_mul, BitVec.toNat_ofNat]
        omega
    obtain ⟨offset, hoffset, haddress⟩ := hoffset
    rw [haddress, hheaders offset hoffset, Option.some.injEq] at hphys
    rw [← hphys, BitVec.toNat_ofNat] at hsame
    omega

/-- Its load leaves no trace. -/
theorem failedLoad_noTrace_exhausted : ∃ next, elfLoadFromInitrd 0x1000#64
    (some ⟨0#64, 176#32, 0x10000#64⟩) spentMachine = some (none, next) ∧
      next.1 0x90000 ≠ spentMachine.1 0x90000 ∧ NoTrace 0x1000#64 spentMachine next := by
  obtain ⟨next, hload, hbefore, hafter⟩ := pagelessImage_fails
  exact ⟨next, hload, by rw [hbefore, hafter]; decide,
    (failedLoad_noTrace (by decide) (by decide) pmmReached_spent hload).1
      (.inr ⟨by decide +kernel, pagelessImage_apart⟩)⟩

/-- With two free pages, a file of three leaves them taken. -/
theorem failedLoad_leaves_trace : ¬ ∀ (pml4 memBase memSize : Word) (file : Option InitrdFile)
    (state next : Memory × TableSupply), regionBase memBase ≠ 0#64 →
      (regionBase memBase).toNat + regionPages memSize * 4096 ≤ 2 ^ 64 →
        PmmReached memBase memSize state.2.pmm →
          elfLoadFromInitrd pml4 file state = some (none, next) → NoTrace pml4 state next := by
  intro hnone
  obtain ⟨next, hload⟩ := threePageImage_fails
  have hreached : PmmReached 0x200000#64 0x2000#64 (lowMachine threePageImage).2.pmm :=
    pmmReached_twoPages
  have htrace := hnone _ _ _ _ _ next (by decide) (by decide) hreached hload
  rcases elfLoad_failed hload with hrejects | ⟨f, phoff, -, -, hloop⟩
  · exact threePageImage_header.not_rejects hrejects
  · have hcount := hreached.loadSegments (by decide) (by decide) hloop
    rw [htrace.count] at hcount
    exact absurd hcount (by decide)

end Colix.Elf
