import Colix.Elf.KernelKept

/-!
# The pages that a load maps

The loader maps every page of a segment to a page of its own, fresh from the page allocator
(`MappedPages`). So what it writes to a segment changes no other byte of the segments, and a byte
that it copied stays until its page is mapped again. Then the address holds what the fresh page held
before the load (`Stale`).
-/

set_option autoImplicit false
set_option relaxedAutoImplicit false

namespace Colix.Elf

open Foundation Mm Initrd Proc

/-- Virtual pages that a load mapped, each to a page of its own. -/
structure MappedPages (pml4 : Word) (origin : SpaceState) (mapped : VirtualPage → Prop)
    (memory : Memory) (supply : TableSupply) : Prop where
  loaded : ∀ page, mapped page →
    ∃ phys, pageMap memory pml4 page = some phys ∧ Loaded pml4 origin memory supply phys
  injective : ∀ page other phys, mapped page → mapped other →
    pageMap memory pml4 page = some phys → pageMap memory pml4 other = some phys → page = other

/-- An address that holds what a free page held before the load. -/
def Stale (pml4 : Word) (origin : SpaceState) (memory : Memory) (address : Word) : Prop :=
  ∃ page, FreePage origin.supply.pmm page ∧
    readByte pml4 memory address = some (origin.memory (page.toNat + address.toNat % 4096))

section Read

variable {pml4 page address : Word} {memory : Memory}

/-- A byte of a mapped page. -/
theorem readByte_of_pageMap (haligned : PageAligned page) (hcanonical : Canonical address)
    (hpage : pageMap memory pml4 (virtualPage address) = some page) :
    readByte pml4 memory address = some (memory (page.toNat + address.toNat % 4096)) := by
  have htranslate : translate memory pml4 address = some (page ||| (address &&& 0xFFF#64)) := by
    rw [translate, if_pos hcanonical, hpage, Option.map_some]
  rw [readByte, htranslate, Option.map_some, toNat_translate haligned hpage htranslate]

/-- A byte at an address that the processor does not accept. -/
theorem readByte_of_not_canonical (hcanonical : ¬ Canonical address) :
    readByte pml4 memory address = none := by
  rw [readByte, translate, if_neg hcanonical, Option.map_none]

/-- Two addresses that the processor accepts are in one page at two places, or in two pages. -/
theorem offset_ne {other : Word} (haddress : Canonical address) (hother : Canonical other)
    (hne : address ≠ other) (hsame : virtualPage address = virtualPage other) :
    address.toNat % 4096 ≠ other.toNat % 4096 := by
  have hpage := congrArg BitVec.toNat hsame
  rw [toNat_virtualPage, toNat_virtualPage] at hpage
  have hnumber : address.toNat ≠ other.toNat := fun heq ↦ hne (BitVec.eq_of_toNat_eq heq)
  have haddressLt := address.isLt
  have hotherLt := other.isLt
  rw [Canonical] at haddress hother
  omega

end Read

section Steps

variable {pml4 pa address : Word} {boot : Memory × TableSupply} {kernel : Word → Prop}
  {origin : SpaceState} {memory next : Memory} {supply supplyNext : TableSupply} {pmm : Pmm}
  {segment : Segment} {p : ℕ} {mapped : VirtualPage → Prop}

/-! ### Mapping a page -/

/-- What `vmm_map` leaves in a page that the load took. -/
theorem Loading.map_position (hload : Loading pml4 boot kernel origin memory supply)
    (hready : SupplyReady origin.supply) (htook : Took supply.pmm pa pmm)
    (hclean : CleanDirectories memory { supply with pmm := pmm } pml4 (segment.page p))
    (hmap : vmmMap allocTable pml4 (segment.page p) pa 3#64 memory { supply with pmm := pmm } =
      some (next, supplyNext)) {page : Word} (hloaded : Loaded pml4 origin next supplyNext page)
    {position : ℕ} (hposition : InPage page position) : next position = memory position := by
  have hroot : origin.Root pml4 pml4 := Or.inl rfl
  have hupdate := hload.spaceUpdate htook hclean hmap
  refine (hload.spaces.take htook).map_frame hroot hclean hmap fun table htable ↦ ?_
  refine not_inPage_of_ne (hupdate.spaces.pageAligned hroot htable)
    (hready.region.pageAligned hloaded.free) ?_ hposition
  rintro rfl
  exact hloaded.unused pml4 hroot htable

/-- A byte stays when another page is mapped. -/
theorem Loading.map_byte (hload : Loading pml4 boot kernel origin memory supply)
    (hready : SupplyReady origin.supply) (htook : Took supply.pmm pa pmm)
    (hclean : CleanDirectories memory { supply with pmm := pmm } pml4 (segment.page p))
    (hmap : vmmMap allocTable pml4 (segment.page p) pa 3#64 memory { supply with pmm := pmm } =
      some (next, supplyNext)) (hmapped : MappedPages pml4 origin mapped memory supply)
    (haddress : mapped (virtualPage address))
    (hne : virtualPage address ≠ virtualPage (segment.page p)) :
    readByte pml4 next address = readByte pml4 memory address := by
  by_cases hcanonical : Canonical address
  · obtain ⟨page, hpage, hloaded⟩ := hmapped.loaded _ haddress
    have haligned := hready.region.pageAligned hloaded.free
    have hupdate := hload.spaceUpdate htook hclean hmap
    have hkept := hupdate.kept pml4 (Or.inl rfl) _ hne page hpage
    have hstill := (hloaded.take (htook.supply hload.spaces.ready)).update hupdate
    have hoffset : InPage page (page.toNat + address.toNat % 4096) := by
      rw [InPage]
      omega
    rw [readByte_of_pageMap haligned hcanonical hkept,
      readByte_of_pageMap haligned hcanonical hpage,
      hload.map_position hready htook hclean hmap hstill hoffset]
  · rw [readByte_of_not_canonical hcanonical, readByte_of_not_canonical hcanonical]

/-- A page that was just mapped holds what it held before the load. -/
theorem Loading.map_stale (hload : Loading pml4 boot kernel origin memory supply)
    (hready : SupplyReady origin.supply) (htook : Took supply.pmm pa pmm)
    (hclean : CleanDirectories memory { supply with pmm := pmm } pml4 (segment.page p))
    (hmap : vmmMap allocTable pml4 (segment.page p) pa 3#64 memory { supply with pmm := pmm } =
      some (next, supplyNext)) (hcanonical : Canonical address)
    (hsame : virtualPage address = virtualPage (segment.page p)) :
    Stale pml4 origin next address := by
  have hsupply := htook.supply hload.spaces.ready
  have hupdate := hload.spaceUpdate htook hclean hmap
  have hloaded := (hload.loaded hready htook).update hupdate
  have haligned := hready.region.pageAligned hloaded.free
  have hself := hupdate.self
  rw [← hsame] at hself
  have hoffset : InPage pa (pa.toNat + address.toNat % 4096) := by
    rw [InPage]
    omega
  refine ⟨pa, hloaded.free, ?_⟩
  rw [readByte_of_pageMap haligned hcanonical hself,
    hload.map_position hready htook hclean hmap hloaded hoffset]
  refine congrArg some (hload.bytes _ (fun page hpage ↦ ?_) (fun table htable ↦ ?_))
  · refine not_inPage_of_ne (hready.region.pageAligned hpage.free) haligned ?_ hoffset
    rintro rfl
    exact hpage.taken hsupply.available
  · refine not_inPage_of_ne (hload.spaces.pageAligned (Or.inl rfl) htable) haligned ?_ hoffset
    rintro rfl
    exact hload.spaces.used pml4 _ (Or.inl rfl) htable hsupply.available

/-- The page joins the pages that the load mapped. -/
theorem MappedPages.map (hmapped : MappedPages pml4 origin mapped memory supply)
    (hload : Loading pml4 boot kernel origin memory supply) (hready : SupplyReady origin.supply)
    (htook : Took supply.pmm pa pmm)
    (hclean : CleanDirectories memory { supply with pmm := pmm } pml4 (segment.page p))
    (hmap : vmmMap allocTable pml4 (segment.page p) pa 3#64 memory { supply with pmm := pmm } =
      some (next, supplyNext)) :
    MappedPages pml4 origin (fun page ↦ mapped page ∨ page = virtualPage (segment.page p)) next
      supplyNext := by
  have hsupply := htook.supply hload.spaces.ready
  have hupdate := hload.spaceUpdate htook hclean hmap
  have hroot : origin.Root pml4 pml4 := Or.inl rfl
  have hself : ∀ phys, pageMap next pml4 (virtualPage (segment.page p)) = some phys → phys = pa :=
    fun phys hphys ↦ Option.some.inj (hphys.symm.trans hupdate.self)
  -- a page that was mapped before is mapped to a page that is not the new one
  have hold : ∀ page, mapped page → page ≠ virtualPage (segment.page p) → ∃ phys,
      pageMap memory pml4 page = some phys ∧ pageMap next pml4 page = some phys ∧
        Loaded pml4 origin memory supply phys ∧ phys ≠ pa := by
    intro page hpage hne
    obtain ⟨phys, hphys, hloaded⟩ := hmapped.loaded page hpage
    refine ⟨phys, hphys, hupdate.kept pml4 hroot page hne phys hphys, hloaded, ?_⟩
    rintro rfl
    exact hloaded.taken hsupply.available
  refine ⟨fun page hpage ↦ ?_, fun page other phys hpage hother hphys hotherPhys ↦ ?_⟩
  · by_cases hnew : page = virtualPage (segment.page p)
    · exact ⟨pa, hnew ▸ hupdate.self, (hload.loaded hready htook).update hupdate⟩
    · obtain ⟨phys, -, hphys, hloaded, -⟩ := hold page (hpage.resolve_right hnew) hnew
      exact ⟨phys, hphys, (hloaded.take hsupply).update hupdate⟩
  · by_cases hnew : page = virtualPage (segment.page p)
    · by_cases hotherNew : other = virtualPage (segment.page p)
      · rw [hnew, hotherNew]
      · obtain ⟨found, -, hfound, -, hne⟩ := hold other (hother.resolve_right hotherNew) hotherNew
        rw [hnew] at hphys
        rw [hotherPhys, Option.some.injEq] at hfound
        exact absurd (hfound.symm.trans (hself phys hphys)) hne
    · by_cases hotherNew : other = virtualPage (segment.page p)
      · obtain ⟨found, -, hfound, -, hne⟩ := hold page (hpage.resolve_right hnew) hnew
        rw [hotherNew] at hotherPhys
        rw [hphys, Option.some.injEq] at hfound
        exact absurd (hfound.symm.trans (hself phys hotherPhys)) hne
      · obtain ⟨found, hbefore, hfound, -, -⟩ := hold page (hpage.resolve_right hnew) hnew
        obtain ⟨foundOther, hotherBefore, hfoundOther, -, -⟩ :=
          hold other (hother.resolve_right hotherNew) hotherNew
        rw [hphys, Option.some.injEq] at hfound
        rw [hotherPhys, Option.some.injEq] at hfoundOther
        subst hfound hfoundOther
        exact hmapped.injective page other phys (hpage.resolve_right hnew)
          (hother.resolve_right hotherNew) hbefore hotherBefore

/-! ### Writing a byte -/

/-- A store to an address that is mapped: the byte is there, and no other changes. -/
theorem MappedPages.store (hmapped : MappedPages pml4 origin mapped memory supply)
    (hload : Loading pml4 boot kernel origin memory supply) (hready : SupplyReady origin.supply)
    (haddress : mapped (virtualPage address)) {value : Byte}
    (hwrite : writeByte pml4 memory address value = some next) :
    MappedPages pml4 origin mapped next supply ∧ readByte pml4 next address = some value ∧
      ∀ other, mapped (virtualPage other) → other ≠ address →
        readByte pml4 next other = readByte pml4 memory other := by
  obtain ⟨page, hpage, hloaded⟩ := hmapped.loaded _ haddress
  obtain ⟨-, hsame⟩ := hload.write_same hready hpage hloaded hwrite
  have hpageMap : ∀ page, pageMap next pml4 page = pageMap memory pml4 page :=
    fun page ↦ hsame pml4 (Or.inl rfl) (indicesOf page) (le_refl 4)
  have haligned := hready.region.pageAligned hloaded.free
  rw [writeByte, Option.map_eq_some_iff] at hwrite
  obtain ⟨phys, htranslate, rfl⟩ := hwrite
  have hcanonical : Canonical address := by
    by_contra hnot
    rw [translate, if_neg hnot] at htranslate
    cases htranslate
  have hplace := toNat_translate haligned hpage htranslate
  refine ⟨⟨fun page hpage ↦ ?_, fun page other phys hpage hother hphys hotherPhys ↦ ?_⟩, ?_, ?_⟩
  · obtain ⟨phys, hphys, hloaded⟩ := hmapped.loaded page hpage
    exact ⟨phys, (hpageMap page).trans hphys, hloaded.same hsame⟩
  · exact hmapped.injective page other phys hpage hother ((hpageMap page).symm.trans hphys)
      ((hpageMap other).symm.trans hotherPhys)
  · rw [readByte_of_pageMap haligned hcanonical ((hpageMap _).trans hpage), ← hplace]
    exact congrArg some (store_byte memory phys.toNat value)
  · intro other hother hne
    by_cases hotherCanonical : Canonical other
    · obtain ⟨otherPage, hotherPage, hotherLoaded⟩ := hmapped.loaded _ hother
      have hotherAligned := hready.region.pageAligned hotherLoaded.free
      rw [readByte_of_pageMap hotherAligned hotherCanonical ((hpageMap _).trans hotherPage),
        readByte_of_pageMap hotherAligned hotherCanonical hotherPage]
      refine congrArg some (store_apply_of_disjoint _ ?_)
      by_cases hpages : virtualPage other = virtualPage address
      · have hoffset := offset_ne hotherCanonical hcanonical hne hpages
        rw [hpages, hpage, Option.some.injEq] at hotherPage
        subst hotherPage
        omega
      · have hdistinct : otherPage ≠ page := by
          rintro rfl
          exact hpages (hmapped.injective _ _ _ hother haddress hotherPage hpage)
        have hnumber : otherPage.toNat ≠ page.toNat :=
          fun heq ↦ hdistinct (BitVec.eq_of_toNat_eq heq)
        rw [PageAligned] at haligned hotherAligned
        omega
    · rw [readByte_of_not_canonical hotherCanonical, readByte_of_not_canonical hotherCanonical]

end Steps

/-! ### The loops of a segment -/

section Loops

variable {pml4 : Word} {boot : Memory × TableSupply} {kernel : Word → Prop} {origin : SpaceState}
  {memory last : Memory} {supply : TableSupply} {segment : Segment} {mapped : VirtualPage → Prop}
  {state reached : Memory × TableSupply} {count : ℕ}

/-- The pages of a segment up to a count, and those mapped before. -/
def WithSegment (mapped : VirtualPage → Prop) (segment : Segment) (count : ℕ)
    (page : VirtualPage) : Prop :=
  mapped page ∨ ∃ p < count, page = virtualPage (segment.page p)

/-- What holds while the pages of a segment are mapped. -/
structure Mapping (pml4 : Word) (boot : Memory × TableSupply) (kernel : Word → Prop)
    (origin : SpaceState) (mapped : VirtualPage → Prop) (segment : Segment) (start : Memory)
    (count : ℕ) (memory : Memory) (supply : TableSupply) : Prop where
  load : Loading pml4 boot kernel origin memory supply
  pages : MappedPages pml4 origin (WithSegment mapped segment count) memory supply
  kept : ∀ address, mapped (virtualPage address) →
    (∀ p < count, virtualPage address ≠ virtualPage (segment.page p)) →
      readByte pml4 memory address = readByte pml4 start address
  stale : ∀ address, Canonical address →
    (∃ p < count, virtualPage address = virtualPage (segment.page p)) →
      Stale pml4 origin memory address

theorem MappedPages.congr {other : VirtualPage → Prop}
    (hmapped : MappedPages pml4 origin mapped memory supply)
    (hsame : ∀ page, other page → mapped page) : MappedPages pml4 origin other memory supply :=
  ⟨fun page hpage ↦ hmapped.loaded page (hsame page hpage), fun page other phys hpage hother ↦
    hmapped.injective page other phys (hsame page hpage) (hsame other hother)⟩

/-- The pages of the segment are among those mapped. -/
theorem MappedPages.pagesLoaded
    (hmapped : MappedPages pml4 origin (WithSegment mapped segment count) memory supply) :
    PagesLoaded pml4 origin segment count memory supply :=
  fun p hp ↦ hmapped.loaded _ (Or.inr ⟨p, hp, rfl⟩)

/-- The loop that maps the pages of a segment. -/
theorem MappedPages.mapPages (hmapped : MappedPages pml4 origin mapped state.1 state.2)
    (hload : Loading pml4 boot kernel origin state.1 state.2) (hready : SupplyReady origin.supply)
    (hapart : ∀ p < segment.pages, ∀ address, kernel address →
      virtualPage address ≠ virtualPage (segment.page p))
    (hclean : CleanSegment pml4 segment state)
    (hloop : leavingLoop (mapPage pml4 segment) segment.pages state = some (Sum.inr reached)) :
    Mapping pml4 boot kernel origin mapped segment state.1 segment.pages reached.1 reached.2 := by
  have hstart : Mapping pml4 boot kernel origin mapped segment state.1 0 state.1 state.2 := by
    refine ⟨hload, hmapped.congr ?_, fun _ _ _ ↦ rfl, ?_⟩
    · rintro page (hpage | ⟨p, hp, -⟩)
      · exact hpage
      · exact absurd hp (Nat.not_lt_zero p)
    · rintro address - ⟨p, hp, -⟩
      exact absurd hp (Nat.not_lt_zero p)
  have hreached : Sum.elim (fun _ : Memory × TableSupply ↦ True)
      (fun reached : Memory × TableSupply ↦ Mapping pml4 boot kernel origin mapped segment state.1
        segment.pages reached.1 reached.2) (Sum.inr reached) := by
    refine leavingLoop_rule (motive := fun p (reached : Memory × TableSupply) ↦
      Mapping pml4 boot kernel origin mapped segment state.1 p reached.1 reached.2) hstart ?_ hloop
    rintro p hp ⟨memory, supply⟩ outcome hsofar hmapping hbody
    obtain ⟨hload, hpages, hkept, hstale⟩ := hmapping
    have hcleanPage : ∀ pa pmm, pmmAllocPage supply.pmm = (pa, pmm) →
        CleanDirectories memory { supply with pmm := pmm } pml4 (segment.page p) :=
      fun pa pmm ↦ hclean p hp (memory, supply) pa pmm hsofar
    have hnext := hload.mapPage hready hpages.pagesLoaded (hapart p hp) hcleanPage hbody
    rcases mapPage_cases hload.spaces.ready.region hbody with
      rfl | ⟨pa, pmm, next, supplyNext, halloc, -, htook, hvmm, rfl⟩
    · trivial
    have hdirectories := hcleanPage pa pmm halloc
    have hmapped := hpages.map hload hready htook hdirectories hvmm
    have hbyte : ∀ address, WithSegment mapped segment p (virtualPage address) →
        virtualPage address ≠ virtualPage (segment.page p) →
          readByte pml4 next address = readByte pml4 memory address :=
      fun address ↦ hload.map_byte hready htook hdirectories hvmm hpages
    refine ⟨hnext.1, hmapped.congr ?_, fun address haddress hne ↦ ?_, ?_⟩
    · rintro page (hpage | ⟨q, hq, rfl⟩)
      · exact Or.inl (Or.inl hpage)
      · rcases Nat.lt_succ_iff_lt_or_eq.mp hq with hlt | rfl
        · exact Or.inl (Or.inr ⟨q, hlt, rfl⟩)
        · exact Or.inr rfl
    · rw [hbyte address (Or.inl haddress) (hne p (Nat.lt_succ_self p))]
      exact hkept address haddress fun q hq ↦ hne q (Nat.lt_succ_of_lt hq)
    · rintro address hcanonical ⟨q, hq, hpage⟩
      by_cases hsame : virtualPage address = virtualPage (segment.page p)
      · exact hload.map_stale hready htook hdirectories hvmm hcanonical hsame
      · have hlt : q < p := by
          rcases Nat.lt_succ_iff_lt_or_eq.mp hq with hlt | rfl
          · exact hlt
          · exact absurd hpage hsame
        obtain ⟨page, hfree, hheld⟩ := hstale address hcanonical ⟨q, hlt, hpage⟩
        exact ⟨page, hfree, (hbyte address (Or.inr ⟨q, hlt, hpage⟩) hsame).trans hheld⟩
  exact hreached

/-- What holds after the first bytes of a segment were written: those are what they should be, and
the others stayed. -/
structure Written (pml4 : Word) (boot : Memory × TableSupply) (kernel : Word → Prop)
    (origin : SpaceState) (mapped : VirtualPage → Prop) (start : Memory) (place : ℕ → Word)
    (expected : ℕ → Option Byte) (count : ℕ) (memory : Memory) (supply : TableSupply) : Prop where
  load : Loading pml4 boot kernel origin memory supply
  pages : MappedPages pml4 origin mapped memory supply
  kept : ∀ address, mapped (virtualPage address) → (∀ j < count, address ≠ place j) →
    readByte pml4 memory address = readByte pml4 start address
  written : ∀ j < count, (expected j).isSome ∧ readByte pml4 memory (place j) = expected j

/-- A loop that writes to different places of a segment. -/
theorem written_of_loop {body : ℕ → Memory → Option Memory} {place : ℕ → Word}
    {expected : ℕ → Option Byte}
    (hmapped : MappedPages pml4 origin (WithSegment mapped segment segment.pages) memory supply)
    (hload : Loading pml4 boot kernel origin memory supply) (hready : SupplyReady origin.supply)
    (hbody : ∀ j < count, ∀ before next, Loading pml4 boot kernel origin before supply →
      body j before = some next → ∃ value, expected j = some value ∧
        writeByte pml4 before (place j) value = some next)
    (hplace : ∀ j < count, ∃ p < segment.pages,
      virtualPage (place j) = virtualPage (segment.page p))
    (hdistinct : ∀ j < count, ∀ k < j, place k ≠ place j)
    (hloop : countedLoop body count memory = some last) :
    Written pml4 boot kernel origin (WithSegment mapped segment segment.pages) memory place expected
      count last supply := by
  refine countedLoop_rule (motive := fun j reached ↦ Written pml4 boot kernel origin
    (WithSegment mapped segment segment.pages) memory place expected j reached supply) ?_ ?_ hloop
  · exact ⟨hload, hmapped, fun _ _ _ ↦ rfl, fun j hj ↦ absurd hj (Nat.not_lt_zero j)⟩
  · rintro j hj before next - ⟨hload, hpages, hkept, hwritten⟩ hnext
    obtain ⟨value, hvalue, hwrite⟩ := hbody j hj before next hload hnext
    obtain ⟨p, hp, hpage⟩ := hplace j hj
    have hinside :
        ∀ k < count, WithSegment mapped segment segment.pages (virtualPage (place k)) := by
      intro k hk
      obtain ⟨q, hq, hsame⟩ := hplace k hk
      exact Or.inr ⟨q, hq, hsame⟩
    obtain ⟨hstored, hself, hothers⟩ := hpages.store hload hready (hinside j hj) hwrite
    refine ⟨(hload.store hready hpages.pagesLoaded hp hpage hwrite).1, hstored,
      fun address haddress hne ↦ ?_, fun k hk ↦ ?_⟩
    · rw [hothers address haddress (hne j (Nat.lt_succ_self j))]
      exact hkept address haddress fun k hk ↦ hne k (Nat.lt_succ_of_lt hk)
    · rcases Nat.lt_succ_iff_lt_or_eq.mp hk with hlt | rfl
      · obtain ⟨hsome, hread⟩ := hwritten k hlt
        refine ⟨hsome, ?_⟩
        rw [hothers _ (hinside k (by omega)) (hdistinct j hj k hlt), hread]
      · rw [hself, hvalue]
        exact ⟨rfl, rfl⟩

/-- Two loops one after the other, over places of the segments. -/
theorem Written.append {mapped : VirtualPage → Prop} {start middle next : Memory}
    {supply supplyNext : TableSupply} {place : ℕ → Word} {expected : ℕ → Option Byte} {more : ℕ}
    (hfirst : Written pml4 boot kernel origin mapped start place expected count middle supply)
    (hsecond : Written pml4 boot kernel origin mapped middle (fun j ↦ place (count + j))
      (fun j ↦ expected (count + j)) more next supplyNext)
    (hplace : ∀ j < count, mapped (virtualPage (place j)))
    (hdistinct : ∀ j < count, ∀ k < more, place j ≠ place (count + k)) :
    Written pml4 boot kernel origin mapped start place expected (count + more) next supplyNext := by
  refine ⟨hsecond.load, hsecond.pages, fun address haddress hne ↦ ?_, fun j hj ↦ ?_⟩
  · rw [hsecond.kept address haddress fun k hk ↦ hne _ (by omega)]
    exact hfirst.kept address haddress fun k hk ↦ hne k (by omega)
  · rcases Nat.lt_or_ge j count with hlt | hge
    · obtain ⟨hsome, hread⟩ := hfirst.written j hlt
      exact ⟨hsome, (hsecond.kept _ (hplace j hlt) (hdistinct j hlt)).trans hread⟩
    · obtain ⟨past, rfl⟩ := Nat.exists_eq_add_of_le hge
      exact hsecond.written past (by omega)

end Loops

end Colix.Elf
