import Colix.Elf.ElfLoader
import Colix.Mm.UntouchedMemory
import Colix.Proc.DirectPages

/-!
# What loading an ELF file leaves alone

The loader maps the pages of a segment wherever the segment says, without looking at what is mapped
there, and copies `filesz` bytes, however many pages the memory size asked for. So a load keeps the
kernel's addresses when its segments stay clear of them: no page of a segment has an address of the
kernel's (`SegmentApart`), and the bytes of the segment fit its pages.

`Loading` is what each step of such a load keeps: the address spaces, the mappings of the kernel's
addresses, and all memory but the pages that the load took and the page tables.

The kernel reaches a page table through its address. In a region apart from the heap that is where
the table lies (`tablesInPlace_of_keepingSystem`): the tables are pages of the image or direct pages
of the region, and nothing is mapped there. In the other regions a table at an address of the heap
would be written in another page.
-/

set_option autoImplicit false
set_option relaxedAutoImplicit false

namespace Colix.Elf

open Foundation Mm Initrd Proc

/-! ### The condition -/

/-- The pages of a segment have no address of the kernel's, and hold its bytes. -/
structure SegmentApart (kernel : Word → Prop) (segment : Segment) : Prop where
  apart : ∀ p < segment.pages, ∀ address, kernel address →
    virtualPage address ≠ virtualPage (segment.page p)
  fits : segment.vaddr.toNat % 4096 + max segment.filesz.toNat segment.memsz.toNat ≤
    segment.pages * 4096

/-- The directories that the pages of a segment need come zeroed. -/
def CleanSegment (pml4 : Word) (segment : Segment) (state : Memory × TableSupply) : Prop :=
  ∀ p < segment.pages, ∀ reached pa pmm,
    leavingLoop (mapPage pml4 segment) p state = some (Sum.inr reached) →
      pmmAllocPage reached.2.pmm = (pa, pmm) →
        CleanDirectories reached.1 { reached.2 with pmm := pmm } pml4 (segment.page p)

/-- Every segment that the loop over the headers comes to. -/
def EverySegment (pml4 base phoff : Word) (start : Memory × TableSupply)
    (condition : Segment → Memory × TableSupply → Prop) : Prop :=
  ∀ i state phnum segment,
    leavingLoop (loadSegment pml4 base phoff) i start = some (Sum.inr state) →
      readField 16 pml4 state.1 (base + 56#64) = some phnum → i < phnum.toNat →
        readPhdr pml4 state.1 (base + phoff + BitVec.ofNat 64 i * 56#64) = some (some segment) →
          condition segment state

/-- Every segment of a file stays clear of the kernel's addresses. -/
def FileApart (pml4 : Word) (kernel : Word → Prop) (file : Option InitrdFile)
    (start : Memory × TableSupply) : Prop :=
  ∀ f phoff, file = some f → readField 64 pml4 start.1 (f.data + 32#64) = some phoff →
    EverySegment pml4 f.data phoff start fun segment state ↦
      SegmentApart kernel segment ∧ CleanSegment pml4 segment state

/-! ### What a load keeps -/

/-- A page that the load took, and that is no table. -/
structure Loaded (pml4 : Word) (origin : SpaceState) (memory : Memory) (supply : TableSupply)
    (page : Word) : Prop where
  free : FreePage origin.supply.pmm page
  taken : ¬ Available supply page
  unused : ∀ root, origin.Root pml4 root → ¬ TableOf memory root page

/-- What holds during a load. -/
structure Loading (pml4 : Word) (boot : Memory × TableSupply) (kernel : Word → Prop)
    (origin : SpaceState) (memory : Memory) (supply : TableSupply) : Prop where
  spaces : Spaces (origin.Root pml4) memory supply
  available : ∀ page, Available supply page → Available origin.supply page
  kept : ∀ address, kernel address → ∀ page,
    pageMap origin.memory pml4 (virtualPage address) = some page →
      pageMap memory pml4 (virtualPage address) = some page
  bytes : ∀ position, (∀ page, Loaded pml4 origin memory supply page → ¬ InPage page position) →
    (∀ table, TableOf memory pml4 table → ¬ InPage table position) →
      memory position = origin.memory position
  tables : ∀ root table, origin.Root pml4 root → TableOf memory root table →
    TableOf origin.memory root table ∨ Available origin.supply table
  /-- The load is made of steps that keep the kernel's addresses. -/
  path : ∃ events held, (keepingSystem pml4 boot kernel).Path origin events
    ⟨memory, supply, origin.processes, held⟩

/-- The pages of a segment up to a count are mapped to pages that the load took. -/
def PagesLoaded (pml4 : Word) (origin : SpaceState) (segment : Segment) (count : ℕ)
    (memory : Memory) (supply : TableSupply) : Prop :=
  ∀ p < count, ∃ page, pageMap memory pml4 (virtualPage (segment.page p)) = some page ∧
    Loaded pml4 origin memory supply page

section Loading

variable {pml4 page pa address : Word} {boot : Memory × TableSupply} {kernel : Word → Prop}
  {origin : SpaceState} {memory next : Memory} {supply supplyNext : TableSupply} {pmm : Pmm}
  {segment : Segment} {p : ℕ}

theorem loading_start (hspaces : Spaces (origin.Root pml4) origin.memory origin.supply) :
    Loading pml4 boot kernel origin origin.memory origin.supply :=
  ⟨hspaces, fun _ hpage ↦ hpage, fun _ _ _ hpage ↦ hpage, fun _ _ _ ↦ rfl,
    fun _ _ _ htable ↦ Or.inl htable, [], origin.held, TransitionSystem.Path.refl origin⟩

/-- A page that was taken stays taken when `vmm_map` makes tables of available pages only. -/
theorem Loaded.update {value : Option Word} {virt : Word}
    (hpage : Loaded pml4 origin memory supply page)
    (hupdate : SpaceUpdate (origin.Root pml4) pml4 virt value memory supply next supplyNext) :
    Loaded pml4 origin next supplyNext page := by
  refine ⟨hpage.free, fun havailable ↦ hpage.taken (hupdate.available page havailable),
    fun root hroot htable ↦ ?_⟩
  rcases hupdate.tables root page hroot htable with hold | havailable
  · exact hpage.unused root hroot hold
  · exact hpage.taken havailable

/-- A page that was taken stays taken when another page is. -/
theorem Loaded.take (hpage : Loaded pml4 origin memory supply page)
    (hsupply : SupplyTook supply pa pmm) :
    Loaded pml4 origin memory { supply with pmm := pmm } page :=
  ⟨hpage.free, fun havailable ↦ hpage.taken (hsupply.rest page havailable).1, hpage.unused⟩

/-- A page that was taken stays taken when the tables stay. -/
theorem Loaded.same (hpage : Loaded pml4 origin memory supply page)
    (hsame : ∀ root, origin.Root pml4 root → ∀ path : List TableIndex, path.length ≤ 4 →
      tableAt next root path = tableAt memory root path) :
    Loaded pml4 origin next supply page := by
  refine ⟨hpage.free, hpage.taken, ?_⟩
  rintro root hroot ⟨path, hlength, hreach⟩
  exact hpage.unused root hroot
    ⟨path, hlength, (hsame root hroot path (by omega)).symm.trans hreach⟩

/-- The page that `pmm_alloc` returns during a load. -/
theorem Loading.loaded (hload : Loading pml4 boot kernel origin memory supply)
    (hready : SupplyReady origin.supply) (htook : Took supply.pmm pa pmm) :
    Loaded pml4 origin memory { supply with pmm := pmm } pa := by
  have hsupply := htook.supply hload.spaces.ready
  refine ⟨?_, fun havailable ↦ (hsupply.rest pa havailable).2 rfl, fun root hroot htable ↦
    hload.spaces.used root pa hroot htable hsupply.available⟩
  have hinRegion := htook.free.inRegion
  have hbase := hload.spaces.ready.region.base_ge
  rcases (hload.available pa hsupply.available).low_or_free hready with hlow | hfree
  · omega
  · exact hfree

/-- What `vmm_map` does to the address spaces during a load. -/
theorem Loading.spaceUpdate (hload : Loading pml4 boot kernel origin memory supply)
    (htook : Took supply.pmm pa pmm)
    (hclean : CleanDirectories memory { supply with pmm := pmm } pml4 (segment.page p))
    (hmap : vmmMap allocTable pml4 (segment.page p) pa 3#64 memory { supply with pmm := pmm } =
      some (next, supplyNext)) :
    SpaceUpdate (origin.Root pml4) pml4 (segment.page p) (some pa) memory
      { supply with pmm := pmm } next supplyNext := by
  have hregion := hload.spaces.ready.region
  have hinRegion := htook.free.inRegion
  have hfits := hregion.fits
  have hroot : origin.Root pml4 pml4 := Or.inl rfl
  have hupdate := (hload.spaces.take htook).map hroot hclean hmap
  rwa [childOf_pageEntry (by decide),
    ptePhys_of_pageAligned (hregion.pageAligned htook.free) (by omega)] at hupdate

/-- A page of a segment is mapped to a page that the load takes, and the rest stays. -/
theorem Loading.update (hload : Loading pml4 boot kernel origin memory supply)
    (hready : SupplyReady origin.supply)
    (hpages : PagesLoaded pml4 origin segment p memory supply)
    (hapart : ∀ address, kernel address → virtualPage address ≠ virtualPage (segment.page p))
    (halloc : pmmAllocPage supply.pmm = (pa, pmm)) (hne : pa ≠ 0#64)
    (htook : Took supply.pmm pa pmm)
    (hclean : CleanDirectories memory { supply with pmm := pmm } pml4 (segment.page p))
    (hmap : vmmMap allocTable pml4 (segment.page p) pa 3#64 memory { supply with pmm := pmm } =
      some (next, supplyNext)) :
    Loading pml4 boot kernel origin next supplyNext ∧
      PagesLoaded pml4 origin segment (p + 1) next supplyNext := by
  have hsupply := htook.supply hload.spaces.ready
  have htaken := hload.spaces.take htook
  have hroot : origin.Root pml4 pml4 := Or.inl rfl
  have hupdate := hload.spaceUpdate htook hclean hmap
  have hloaded : ∀ page, Loaded pml4 origin memory supply page →
      Loaded pml4 origin next supplyNext page :=
    fun page hpage ↦ (hpage.take hsupply).update hupdate
  refine ⟨⟨hupdate.spaces, ?_, ?_, ?_, ?_, ?_⟩, fun q hq ↦ ?_⟩
  · exact fun page hpage ↦ hload.available page (hsupply.rest page (hupdate.available page hpage)).1
  · exact fun address haddress page hpage ↦ hupdate.kept pml4 hroot _ (hapart address haddress) page
      (hload.kept address haddress page hpage)
  · intro position hpages htables
    rw [htaken.map_frame hroot hclean hmap htables]
    refine hload.bytes position (fun page hpage ↦ hpages page (hloaded page hpage)) ?_
    rintro table ⟨path, hlength, htable⟩
    exact htables table ⟨path, hlength, hupdate.keptTables pml4 hroot path hlength table htable⟩
  · intro root table htableRoot htable
    rcases hupdate.tables root table htableRoot htable with hold | havailable
    · exact hload.tables root table htableRoot hold
    · exact Or.inr (hload.available table (hsupply.rest table havailable).1)
  · obtain ⟨events, held, hpath⟩ := hload.path
    have htake : (keepingSystem pml4 boot kernel).step
        ⟨memory, supply, origin.processes, held⟩ (.alloc pa)
        ⟨memory, { supply with pmm := pmm }, origin.processes, pa :: held⟩ :=
      ⟨⟨trivial, fun _ _ ↦ trivial⟩, SpaceStep.alloc halloc hne⟩
    have hbind : (keepingSystem pml4 boot kernel).step
        ⟨memory, { supply with pmm := pmm }, origin.processes, pa :: held⟩
        (.map pml4 (segment.page p) pa 3#64) ⟨next, supplyNext, origin.processes, pa :: held⟩ :=
      ⟨⟨hclean, hapart⟩, SpaceStep.map hroot hmap⟩
    exact ⟨_, pa :: held, (hpath.step htake).step hbind⟩
  · by_cases hself : virtualPage (segment.page q) = virtualPage (segment.page p)
    · rw [hself]
      exact ⟨pa, hupdate.self, (hload.loaded hready htook).update hupdate⟩
    · have hne : q ≠ p := fun heq ↦ hself (by rw [heq])
      obtain ⟨page, hpage, hold⟩ := hpages q (by omega)
      exact ⟨page, hupdate.kept pml4 hroot _ hself page hpage, hloaded page hold⟩

/-- All that an iteration of the loop that maps the pages of a segment can do. -/
theorem mapPage_cases (hready : RegionReady supply.pmm)
    {outcome : (Memory × TableSupply) ⊕ (Memory × TableSupply)}
    (hmap : mapPage pml4 segment p (memory, supply) = some outcome) :
    outcome = Sum.inl (memory, supply) ∨ ∃ pa pmm next supplyNext,
      pmmAllocPage supply.pmm = (pa, pmm) ∧ pa ≠ 0#64 ∧ Took supply.pmm pa pmm ∧
        vmmMap allocTable pml4 (segment.page p) pa 3#64 memory { supply with pmm := pmm } =
            some (next, supplyNext) ∧
          outcome = Sum.inr (next, supplyNext) := by
  rw [mapPage] at hmap
  rcases hready.pmmAlloc_cases with ⟨hnull, -⟩ | ⟨pa, pmm, halloc, hne, htook⟩
  · simp only [pmmAllocPage, hnull, ↓reduceIte, Option.some.injEq] at hmap
    exact Or.inl hmap.symm
  · simp only [pmmAllocPage, halloc, if_neg hne, Option.map_eq_some_iff] at hmap
    obtain ⟨⟨next, supplyNext⟩, hvmm, rfl⟩ := hmap
    exact Or.inr ⟨pa, pmm, next, supplyNext, halloc, hne, htook, hvmm, rfl⟩

/-- An iteration of the loop that maps the pages of a segment. -/
theorem Loading.mapPage (hload : Loading pml4 boot kernel origin memory supply)
    (hready : SupplyReady origin.supply)
    (hpages : PagesLoaded pml4 origin segment p memory supply)
    (hapart : ∀ address, kernel address → virtualPage address ≠ virtualPage (segment.page p))
    (hclean : ∀ pa pmm, pmmAllocPage supply.pmm = (pa, pmm) →
      CleanDirectories memory { supply with pmm := pmm } pml4 (segment.page p))
    {outcome : (Memory × TableSupply) ⊕ (Memory × TableSupply)}
    (hmap : mapPage pml4 segment p (memory, supply) = some outcome) :
    Sum.elim (fun state ↦ Loading pml4 boot kernel origin state.1 state.2)
      (fun state ↦ Loading pml4 boot kernel origin state.1 state.2 ∧
        PagesLoaded pml4 origin segment (p + 1) state.1 state.2) outcome := by
  rcases mapPage_cases hload.spaces.ready.region hmap with
    rfl | ⟨pa, pmm, next, supplyNext, halloc, hne, htook, hvmm, rfl⟩
  · exact hload
  · exact hload.update hready hpages hapart halloc hne htook (hclean pa pmm halloc) hvmm

/-- The loop that maps the pages of a segment. -/
theorem Loading.mapPages (hload : Loading pml4 boot kernel origin memory supply)
    (hready : SupplyReady origin.supply)
    (hapart : ∀ p < segment.pages, ∀ address, kernel address →
      virtualPage address ≠ virtualPage (segment.page p))
    (hclean : CleanSegment pml4 segment (memory, supply))
    {outcome : (Memory × TableSupply) ⊕ (Memory × TableSupply)}
    (hloop : leavingLoop (Elf.mapPage pml4 segment) segment.pages (memory, supply) =
      some outcome) :
    Sum.elim (fun state ↦ Loading pml4 boot kernel origin state.1 state.2)
      (fun state ↦ Loading pml4 boot kernel origin state.1 state.2 ∧
        PagesLoaded pml4 origin segment segment.pages state.1 state.2) outcome := by
  refine leavingLoop_rule (motive := fun p (state : Memory × TableSupply) ↦
    Loading pml4 boot kernel origin state.1 state.2 ∧
      PagesLoaded pml4 origin segment p state.1 state.2)
    ⟨hload, fun p hp ↦ absurd hp (Nat.not_lt_zero p)⟩ ?_ hloop
  rintro p hp ⟨memory, supply⟩ next hsofar ⟨hload, hpages⟩ hbody
  exact hload.mapPage hready hpages (hapart p hp)
    (fun pa pmm ↦ hclean p hp (memory, supply) pa pmm hsofar) hbody

/-- A store to a page that the load took. -/
theorem Loading.write (hload : Loading pml4 boot kernel origin memory supply)
    (hready : SupplyReady origin.supply) {value : Byte}
    (hpage : pageMap memory pml4 (virtualPage address) = some page)
    (hloaded : Loaded pml4 origin memory supply page)
    (hwrite : writeByte pml4 memory address value = some next) :
    (∀ position, ¬ InPage page position → next position = memory position) ∧
      ∀ root table, origin.Root pml4 root → TableOf memory root table → ∀ position,
        InPage table position → next position = memory position := by
  rw [writeByte, Option.map_eq_some_iff] at hwrite
  obtain ⟨phys, htranslate, rfl⟩ := hwrite
  have haligned := hready.region.pageAligned hloaded.free
  have haddress := toNat_translate haligned hpage htranslate
  have hframe : ∀ position, ¬ InPage page position →
      store memory phys.toNat value position = memory position := by
    intro position hposition
    rw [InPage] at hposition
    exact store_apply_of_disjoint _ (by omega)
  refine ⟨hframe, fun root table hroot htable position hposition ↦ ?_⟩
  refine hframe position (not_inPage_of_ne haligned (hload.spaces.pageAligned hroot htable) ?_
    hposition)
  rintro rfl
  exact hloaded.unused root hroot htable

/-- Such a store leaves the tables alone, and the paths through them. -/
theorem Loading.write_same (hload : Loading pml4 boot kernel origin memory supply)
    (hready : SupplyReady origin.supply) {value : Byte}
    (hpage : pageMap memory pml4 (virtualPage address) = some page)
    (hloaded : Loaded pml4 origin memory supply page)
    (hwrite : writeByte pml4 memory address value = some next) :
    Spaces (origin.Root pml4) next supply ∧ ∀ root, origin.Root pml4 root →
      ∀ path : List TableIndex, path.length ≤ 4 →
        tableAt next root path = tableAt memory root path :=
  hload.spaces.congr hload.spaces.ready (fun _ ↦ Or.inl)
    (hload.write hready hpage hloaded hwrite).2

/-- A store to a page that the load took keeps what holds during a load. -/
theorem Loading.store (hload : Loading pml4 boot kernel origin memory supply)
    (hready : SupplyReady origin.supply) {value : Byte} {count : ℕ}
    (hpages : PagesLoaded pml4 origin segment count memory supply) (hp : p < count)
    (haddress : virtualPage address = virtualPage (segment.page p))
    (hwrite : writeByte pml4 memory address value = some next) :
    Loading pml4 boot kernel origin next supply ∧
      PagesLoaded pml4 origin segment count next supply := by
  obtain ⟨page, hpage, hloaded⟩ := hpages p hp
  rw [← haddress] at hpage
  obtain ⟨hframe, htables⟩ := hload.write hready hpage hloaded hwrite
  obtain ⟨hspaces, hsame⟩ := hload.write_same hready hpage hloaded hwrite
  have hroot : origin.Root pml4 pml4 := Or.inl rfl
  have hpageMap : ∀ page, pageMap next pml4 page = pageMap memory pml4 page :=
    fun page ↦ hsame pml4 hroot (indicesOf page) (le_refl 4)
  have htable : ∀ root, origin.Root pml4 root → ∀ table,
      TableOf next root table ↔ TableOf memory root table := by
    refine fun root hroot table ↦ ⟨?_, ?_⟩
    · rintro ⟨path, hlength, hreach⟩
      exact ⟨path, hlength, (hsame root hroot path (by omega)).symm.trans hreach⟩
    · rintro ⟨path, hlength, hreach⟩
      exact ⟨path, hlength, (hsame root hroot path (by omega)).trans hreach⟩
  have hkept : ∀ page, Loaded pml4 origin memory supply page →
      Loaded pml4 origin next supply page := fun page hpage ↦ hpage.same hsame
  refine ⟨⟨hspaces, hload.available, ?_, ?_, fun root table hroot hnext ↦
    hload.tables root table hroot ((htable root hroot table).mp hnext), ?_⟩, fun q hq ↦ ?_⟩
  · intro kernelAddress hkernel mapped hmapped
    rw [hpageMap]
    exact hload.kept kernelAddress hkernel mapped hmapped
  · intro position houtside hnot
    rw [hframe position (houtside page (hkept page hloaded))]
    exact hload.bytes position (fun other hother ↦ houtside other (hkept other hother))
      fun table hold ↦ hnot table ((htable pml4 hroot table).mpr hold)
  · obtain ⟨events, held, hpath⟩ := hload.path
    have hstore : (keepingSystem pml4 boot kernel).step
        ⟨memory, supply, origin.processes, held⟩ .write
        ⟨next, supply, origin.processes, held⟩ :=
      ⟨⟨trivial, fun _ _ ↦ trivial⟩, SpaceStep.write htables⟩
    exact ⟨_, held, hpath.step hstore⟩
  · obtain ⟨other, hother, hotherLoaded⟩ := hpages q hq
    exact ⟨other, (hpageMap _).trans hother, hkept other hotherLoaded⟩

/-- The bytes of a segment lie in its pages. -/
theorem SegmentApart.virtualPage_eq (hapart : SegmentApart kernel segment) {j : ℕ}
    (hj : j < max segment.filesz.toNat segment.memsz.toNat) :
    ∃ p < segment.pages,
      virtualPage (segment.vaddr + BitVec.ofNat 64 j) = virtualPage (segment.page p) := by
  have hfits := hapart.fits
  refine ⟨(segment.vaddr.toNat % 4096 + j) / 4096, by omega, BitVec.eq_of_toNat_eq ?_⟩
  have hstart : segment.pageStart.toNat = segment.vaddr.toNat / 4096 * 4096 :=
    toNat_pageOf segment.vaddr
  rw [toNat_virtualPage, toNat_virtualPage, Segment.page, BitVec.toNat_add, BitVec.toNat_add,
    BitVec.toNat_mul, BitVec.toNat_ofNat, BitVec.toNat_ofNat, BitVec.toNat_ofNat, hstart]
  omega

/-- Filling a segment whose pages are loaded. -/
theorem Loading.fillSegment (hload : Loading pml4 boot kernel origin memory supply)
    (hready : SupplyReady origin.supply)
    (hpages : PagesLoaded pml4 origin segment segment.pages memory supply)
    (hapart : SegmentApart kernel segment) {base : Word}
    (hfill : fillSegment pml4 base segment memory = some next) :
    Loading pml4 boot kernel origin next supply ∧
      PagesLoaded pml4 origin segment segment.pages next supply := by
  rw [Elf.fillSegment, Option.bind_eq_some_iff] at hfill
  obtain ⟨copied, hcopy, hclear⟩ := hfill
  have hcopied : Loading pml4 boot kernel origin copied supply ∧
      PagesLoaded pml4 origin segment segment.pages copied supply := by
    refine countedLoop_rule (motive := fun _ memory ↦
      Loading pml4 boot kernel origin memory supply ∧
        PagesLoaded pml4 origin segment segment.pages memory supply)
      ⟨hload, hpages⟩ ?_ hcopy
    rintro j hj memory next - ⟨hload, hpages⟩ hbody
    rw [copyByte, Option.bind_eq_some_iff] at hbody
    obtain ⟨value, -, hwrite⟩ := hbody
    obtain ⟨p, hp, haddress⟩ := hapart.virtualPage_eq (lt_max_of_lt_left hj)
    exact hload.store hready hpages hp haddress hwrite
  refine countedLoop_rule (motive := fun _ memory ↦
    Loading pml4 boot kernel origin memory supply ∧
      PagesLoaded pml4 origin segment segment.pages memory supply) hcopied ?_ hclear
  rintro j hj memory next - ⟨hload, hpages⟩ hbody
  obtain ⟨p, hp, haddress⟩ := hapart.virtualPage_eq
    (show segment.filesz.toNat + j < max segment.filesz.toNat segment.memsz.toNat by omega)
  exact hload.store hready hpages hp haddress hbody

/-- An iteration of the loop over the headers. -/
theorem Loading.loadSegment (hload : Loading pml4 boot kernel origin memory supply)
    (hready : SupplyReady origin.supply) {base phoff : Word} {i : ℕ}
    (hsegment : ∀ phnum segment, readField 16 pml4 memory (base + 56#64) = some phnum →
      i < phnum.toNat →
        readPhdr pml4 memory (base + phoff + BitVec.ofNat 64 i * 56#64) = some (some segment) →
          SegmentApart kernel segment ∧ CleanSegment pml4 segment (memory, supply))
    {outcome : (Bool × Memory × TableSupply) ⊕ (Memory × TableSupply)}
    (hbody : loadSegment pml4 base phoff i (memory, supply) = some outcome) :
    Sum.elim (fun exit ↦ Loading pml4 boot kernel origin exit.2.1 exit.2.2)
      (fun state ↦ Loading pml4 boot kernel origin state.1 state.2) outcome := by
  cases loadSegment_cases hbody with
  | done => exact hload
  | skipped => exact hload
  | exhausted hphnum hi hphdr hmap =>
    obtain ⟨hapart, hclean⟩ := hsegment _ _ hphnum hi hphdr
    exact hload.mapPages hready hapart.apart hclean hmap
  | loaded hphnum hi hphdr hmap hfill =>
    obtain ⟨hapart, hclean⟩ := hsegment _ _ hphnum hi hphdr
    obtain ⟨hmapped, hpages⟩ := hload.mapPages hready hapart.apart hclean hmap
    exact (hmapped.fillSegment hready hpages hapart hfill).1

/-- The loop over the headers. -/
theorem loading_of_loop (hspaces : Spaces (origin.Root pml4) origin.memory origin.supply)
    {base phoff : Word} {count : ℕ}
    (hsegments : EverySegment pml4 base phoff (origin.memory, origin.supply)
      fun segment state ↦ SegmentApart kernel segment ∧ CleanSegment pml4 segment state)
    {outcome : (Bool × Memory × TableSupply) ⊕ (Memory × TableSupply)}
    (hloop : leavingLoop (Elf.loadSegment pml4 base phoff) count (origin.memory, origin.supply) =
      some outcome) :
    Sum.elim (fun exit ↦ Loading pml4 boot kernel origin exit.2.1 exit.2.2)
      (fun state ↦ Loading pml4 boot kernel origin state.1 state.2) outcome := by
  refine leavingLoop_rule (motive := fun _ (state : Memory × TableSupply) ↦
    Loading pml4 boot kernel origin state.1 state.2) (loading_start hspaces) ?_ hloop
  rintro i - ⟨memory, supply⟩ next hsofar hload hbody
  exact hload.loadSegment hspaces.ready (fun phnum segment hphnum hi hphdr ↦
    hsegments i (memory, supply) phnum segment hsofar hphnum hi hphdr) hbody

/-- The whole load. Assumes: its segments stay clear of the kernel's addresses. -/
theorem loading_of_elfLoad (hspaces : Spaces (origin.Root pml4) origin.memory origin.supply)
    {file : Option InitrdFile} (hapart : FileApart pml4 kernel file (origin.memory, origin.supply))
    {result : Option Word} (hload : elfLoadFromInitrd pml4 file (origin.memory, origin.supply) =
      some (result, next, supplyNext)) :
    Loading pml4 boot kernel origin next supplyNext := by
  rcases elfLoad_cases hload with hsame | ⟨f, phoff, done, hfile, hphoff, hleft⟩
  · rw [Prod.mk.injEq] at hsame
    rw [hsame.1, hsame.2]
    exact loading_start hspaces
  · rw [loadSegments] at hleft
    exact loading_of_loop hspaces (hapart f phoff hfile hphoff) hleft

end Loading

/-! ### The kernel's addresses -/

/-- An address of the kernel image, of the heap, or of the region that the page allocator has. -/
def KernelAddress (imageEnd : ℕ) (pmm : Pmm) (address : Word) : Prop :=
  (0x100000 ≤ address.toNat ∧ address.toNat < imageEnd) ∨ InHeap address ∨
    (pmm.pmmBase.toNat ≤ address.toNat ∧
      address.toNat < pmm.pmmBase.toNat + pmm.pmmTotalPages.toNat * 4096)

/-- A load keeps what the kernel's addresses resolve to, and the bytes there, but for the pages that
it took and the page tables that `vmm_map` keeps. -/
structure KernelKept (pml4 : Word) (kernel : Word → Prop) (memory : Memory) (supply : TableSupply)
    (next : Memory) (supplyNext : TableSupply) : Prop where
  resolves : ∀ address, kernel address →
    vmmResolve pml4 address next = vmmResolve pml4 address memory
  bytes : ∀ address, kernel address →
    (∀ page, FreePage supply.pmm page → ¬ FreePage supplyNext.pmm page →
      ¬ InPage page (vmmResolve pml4 address memory).toNat) →
      (∀ table, TableOf next pml4 table → ¬ InPage table (vmmResolve pml4 address memory).toNat) →
        next (vmmResolve pml4 address memory).toNat =
          memory (vmmResolve pml4 address memory).toNat

/-- The kernel image ends below 2 MiB, and has the boot page tables and `pt_pool` in it. -/
structure KernelImage (layout : BootLayout) (imageEnd : ℕ) : Prop where
  end_le : imageEnd ≤ 0x200000
  tables_ge : 0x100000 ≤ layout.pml4Table.toNat
  tables_end : layout.pml4Table.toNat + 4 * 4096 ≤ imageEnd
  pool_ge : 0x100000 ≤ layout.ptPool.toNat
  pool_end : layout.ptPool.toNat + 262144 ≤ imageEnd

section Tables

variable {layout : BootLayout} {memory : Memory} {before : Pmm} {memBase memSize page : Word}
  {imageEnd : ℕ} {s : SpaceState}

/-- What `alloc_table` can return at boot is of the image or of the region. -/
theorem KernelImage.kernelAddress (himage : KernelImage layout imageEnd) {pmm : Pmm}
    (hpage : Available ⟨layout.ptPool, 0#64, pmm⟩ page) : KernelAddress imageEnd pmm page := by
  rcases hpage with ⟨number, -, hlt, haddress⟩ | hfree
  · have hge := himage.pool_ge
    have hend := himage.pool_end
    have haddress : page.toNat = layout.ptPool.toNat + number * 4096 := haddress
    exact Or.inl (by omega)
  · exact Or.inr (Or.inr hfree.inRegion)

/-- The boot page tables are of the image. -/
theorem KernelImage.kernelAddress_table (himage : KernelImage layout imageEnd)
    (hbss : BssCleared layout memory) {pmm : Pmm}
    (htable : TableOf (setupPaging layout memory) layout.pml4Table page) :
    KernelAddress imageEnd pmm page := by
  obtain ⟨level, hlevel, rfl⟩ := table_of_setupPaging layout hbss htable
  have haddress := layout.toNat_table hlevel
  have hge := himage.tables_ge
  have hend := himage.tables_end
  exact Or.inl (by omega)

/-- After `vmm_init` the tables in use and the pages they can be made of are direct pages of the
kernel's. -/
theorem KernelImage.directInvariant (himage : KernelImage layout imageEnd)
    (hbss : BssCleared layout memory) (hbase : 0x200000 ≤ (regionBase memBase).toNat)
    (hfits : (regionBase memBase).toNat + regionPages memSize * 4096 ≤ 2 ^ 48)
    (hclean : CleanWindow layout.pml4Table (bootState layout memory before memBase memSize))
    (hapart : RegionApart (regionBase memBase).toNat (regionPages memSize))
    (hstart : Booted layout.pml4Table (bootState layout memory before memBase memSize) s) :
    DirectInvariant layout.pml4Table (fun page ↦ Direct (pmmInit before memBase memSize) page ∧
      KernelAddress imageEnd (pmmInit before memBase memSize) page) s := by
  have hdirect := directInvariant_booted hbss hbase hfits hclean hapart hstart
  have hregion : RegionReady (pmmInit before memBase memSize) :=
    regionReady_pmmInit before hbase (by omega)
  have htotal : (pmmInit before memBase memSize).pmmTotalPages.toNat = regionPages memSize :=
    toNat_totalPages_pmmInit before memBase memSize
  have hmapped := (poolMapped_boot hbss hregion).toKernelMapped
  obtain ⟨next, supply, processes, held⟩ := s
  obtain ⟨hinit, rfl, rfl⟩ := hstart
  have hbound : (pmmInit before memBase memSize).pmmBase.toNat +
      (pmmInit before memBase memSize).pmmTotalPages.toNat * 4096 ≤ 2 ^ 48 := by
    rw [htotal]
    exact hfits
  simp only [bootState] at hmapped hclean hinit
  obtain ⟨havailable, htables⟩ := hmapped.tables_vmmInit hbound hclean hinit
  refine ⟨⟨hdirect.toSpaceInvariant, fun root page hroot hpage ↦
    hdirect.mapped root page hroot hpage.1⟩, ?_, by simp, ?_⟩
  · intro page hpage
    exact ⟨hdirect.available page hpage, himage.kernelAddress (havailable page hpage)⟩
  · intro root table hroot htable
    refine ⟨hdirect.tables root table hroot htable, ?_⟩
    obtain rfl : root = layout.pml4Table := hroot.resolve_right (by simp)
    rcases htables table htable with hold | hnew
    · exact himage.kernelAddress_table hbss hold
    · exact himage.kernelAddress hnew

/-- In every run over a region apart from the heap that keeps the kernel's addresses, the page
tables are in place. -/
theorem tablesInPlace_of_keepingSystem (himage : KernelImage layout imageEnd)
    (hbss : BssCleared layout memory) (hbase : 0x200000 ≤ (regionBase memBase).toNat)
    (hfits : (regionBase memBase).toNat + regionPages memSize * 4096 ≤ 2 ^ 48)
    (hclean : CleanWindow layout.pml4Table (bootState layout memory before memBase memSize))
    (hapart : RegionApart (regionBase memBase).toNat (regionPages memSize))
    {events : List SpaceEvent}
    (hrun : (keepingSystem layout.pml4Table (bootState layout memory before memBase memSize)
      (KernelAddress imageEnd (pmmInit before memBase memSize))).Run events s) :
    TablesInPlace layout.pml4Table s := by
  have hinv := hrun.invariant (motive := DirectInvariant layout.pml4Table fun page ↦
    Direct (pmmInit before memBase memSize) page ∧
      KernelAddress imageEnd (pmmInit before memBase memSize) page)
    (fun _ hstart ↦ himage.directInvariant hbss hbase hfits hclean hapart hstart) ?_
  · exact hinv.tablesInPlace hinv.tables
  · rintro state event next hstate ⟨⟨hcleanStep, hkeeps⟩, hstep⟩
    exact hstate.step hcleanStep (fun page hpage ↦ hkeeps page hpage.2) hstep

end Tables

section Kernel

variable {pml4 : Word} {boot : Memory × TableSupply} {s : SpaceState} {imageEnd : ℕ}

/-- After `vmm_init` every address of the kernel's is mapped. -/
theorem mapped_of_vmmInit (himage : imageEnd ≤ 0x200000)
    (hmapped : KernelMapped pml4 boot.2 boot.1 boot.2)
    (hbound : boot.2.pmm.pmmBase.toNat + boot.2.pmm.pmmTotalPages.toNat * 4096 ≤ 2 ^ 48)
    (hclean : CleanWindow pml4 boot) {start : SpaceState} (hstart : Booted pml4 boot start) :
    SpaceInvariant pml4 start ∧ ∀ address, KernelAddress imageEnd boot.2.pmm address →
      ∃ page, pageMap start.memory pml4 (virtualPage address) = some page ∧ True := by
  obtain ⟨memory, supply, processes, held⟩ := start
  obtain ⟨hinit, rfl, rfl⟩ := hstart
  have hready := vmmInit_ready hmapped hbound hclean hinit
  have hmod := hmapped.spaces.ready.region.base_mod
  refine ⟨spaceInvariant_start hready.spaces, fun address haddress ↦ ?_⟩
  have hpage := toNat_pageOf address
  rw [← virtualPage_pageOf]
  rw [KernelAddress, InHeap] at haddress
  by_cases hheap : InHeap (pageOf address)
  · obtain ⟨phys, hphys, -⟩ := hready.heap (pageOf address) (pageAligned_pageOf address) hheap
    exact ⟨phys, hphys, trivial⟩
  · have hnot : ¬ (0x400000 ≤ address.toNat ∧ address.toNat < 0x800000) := by
      rw [InHeap] at hheap
      omega
    rcases haddress with himageAddress | hheapAddress | hregion
    · exact ⟨pageOf address, hready.low _ (pageAligned_pageOf address) (by omega), trivial⟩
    · exact absurd hheapAddress hnot
    · exact ⟨pageOf address, hready.window _ (pageAligned_pageOf address) (by omega) (by omega)
        hheap, trivial⟩

/-- What a load from a state of a run leaves, given that the kernel's addresses are mapped. -/
theorem Loading.kernelKept {kernel : Word → Prop} {next : Memory} {supplyNext : TableSupply}
    (hmapped : ∀ address, kernel address →
      ∃ page, pageMap s.memory pml4 (virtualPage address) = some page)
    (hload : Loading pml4 boot kernel s next supplyNext) :
    KernelKept pml4 kernel s.memory s.supply next supplyNext := by
  refine ⟨fun address haddress ↦ ?_, fun address haddress hpages htables ↦ ?_⟩
  · obtain ⟨page, hpage⟩ := hmapped address haddress
    rw [vmmResolve_eq_resolveIn, vmmResolve_eq_resolveIn, resolveIn, resolveIn, hpage,
      hload.kept address haddress page hpage]
  · exact hload.bytes _ (fun page hpage ↦ hpages page hpage.free
      fun hfree ↦ hpage.taken (Or.inr hfree)) htables

/-- In every state of every run after `vmm_init` that keeps the kernel's addresses, over a region
apart from the heap, loading a file whose segments stay clear of them keeps them too, leads to a
state of such a run, and leaves the page tables in place. -/
theorem elfLoad_keeps_kernel {layout : BootLayout} {memory : Memory} {before : Pmm}
    {memBase memSize : Word} (himage : KernelImage layout imageEnd)
    (hbss : BssCleared layout memory) (hbase : 0x200000 ≤ (regionBase memBase).toNat)
    (hfits : (regionBase memBase).toNat + regionPages memSize * 4096 ≤ 2 ^ 48)
    (hclean : CleanWindow layout.pml4Table (bootState layout memory before memBase memSize))
    (hregionApart : RegionApart (regionBase memBase).toNat (regionPages memSize))
    {events : List SpaceEvent}
    (hrun : (keepingSystem layout.pml4Table (bootState layout memory before memBase memSize)
      (KernelAddress imageEnd (pmmInit before memBase memSize))).Run events s)
    {file : Option InitrdFile} (hapart : FileApart layout.pml4Table
      (KernelAddress imageEnd (pmmInit before memBase memSize)) file (s.memory, s.supply))
    {result : Option Word} {next : Memory} {supplyNext : TableSupply}
    (hload : elfLoadFromInitrd layout.pml4Table file (s.memory, s.supply) =
      some (result, next, supplyNext)) :
    KernelKept layout.pml4Table (KernelAddress imageEnd (pmmInit before memBase memSize)) s.memory
        s.supply next supplyNext ∧
      ∃ loadEvents held,
        (keepingSystem layout.pml4Table (bootState layout memory before memBase memSize)
          (KernelAddress imageEnd (pmmInit before memBase memSize))).Run (events ++ loadEvents)
            ⟨next, supplyNext, s.processes, held⟩ ∧
          TablesInPlace layout.pml4Table ⟨next, supplyNext, s.processes, held⟩ := by
  have hregion : RegionReady (pmmInit before memBase memSize) :=
    regionReady_pmmInit before hbase (hfits.trans (by decide))
  have hmapped := (poolMapped_boot hbss hregion).toKernelMapped
  have htotal : (pmmInit before memBase memSize).pmmTotalPages.toNat = regionPages memSize :=
    toNat_totalPages_pmmInit before memBase memSize
  have hbound : (pmmInit before memBase memSize).pmmBase.toNat +
      (pmmInit before memBase memSize).pmmTotalPages.toNat * 4096 ≤ 2 ^ 48 := by
    rw [htotal]
    exact hfits
  obtain ⟨hinv, haddresses⟩ := mapped_of_keepingSystem
    (fun start hstart ↦ mapped_of_vmmInit himage.end_le hmapped hbound hclean hstart) hrun
  have hloading : Loading layout.pml4Table (bootState layout memory before memBase memSize)
      (KernelAddress imageEnd (pmmInit before memBase memSize)) s next supplyNext :=
    loading_of_elfLoad hinv.spaces hapart hload
  refine ⟨hloading.kernelKept fun address haddress ↦ ?_, ?_⟩
  · obtain ⟨page, hpage, -⟩ := haddresses address haddress
    exact ⟨page, hpage⟩
  · obtain ⟨loadEvents, held, hpath⟩ := hloading.path
    have hafter := hrun.append hpath
    exact ⟨loadEvents, held, hafter, tablesInPlace_of_keepingSystem himage hbss hbase hfits hclean
      hregionApart hafter⟩

end Kernel

end Colix.Elf
