import Colix.Foundation.Execution
import Colix.Mm.TableCalls

/-!
# Runs that take tables

Every run of `vmm_map`, `vmm_new_pagedir`, `pmm_alloc` and `pmm_free` from the boot page tables, in
which pages that are held are written with anything, over memory of any contents.
-/

set_option autoImplicit false
set_option relaxedAutoImplicit false

namespace Colix.Mm

open Foundation

/-! ### The operations -/

/-- Memory, the supply of tables, the PML4s in use, and the pages that callers of `pmm_alloc`
hold. -/
structure TableState where
  memory : Memory
  supply : TableSupply
  roots : List Word
  held : List Word

/-- An operation of a run. A page is freed by who holds it. -/
inductive TableEvent where
  | map (root virt phys flags : Word)
  | newPagedir
  | alloc
  | free (page : Word)
  | write (position : ℕ) (byte : BitVec 8)

/-- The position lies in a page that is held. -/
def inHeld (held : List Word) (position : ℕ) : Bool :=
  held.any fun page ↦ decide (page.toNat ≤ position ∧ position < page.toNat + 4096)

/-- What an operation does. `none` is a panic, or an operation that no caller may ask for. -/
def TableEvent.perform (kernelPml4 : Word) (s : TableState) : TableEvent → Option TableState
  | .map root virt phys flags =>
    if root ∈ s.roots then
      (vmmMap allocTable root virt phys flags s.memory s.supply).map fun (memory, supply) ↦
        { s with memory := memory, supply := supply }
    else none
  | .newPagedir =>
    (vmmNewPagedir kernelPml4 s.memory s.supply).map fun (pml4, memory, supply) ↦
      { s with memory := memory, supply := supply, roots := pml4 :: s.roots }
  | .alloc =>
    match pmmAlloc s.supply.pmm with
    | (page, pmm) =>
      if page = 0#64 then some s
      else some { s with supply := { s.supply with pmm := pmm }, held := page :: s.held }
  | .free page =>
    if page ∈ s.held then
      some { s with
        supply := { s.supply with pmm := pmmFreePage s.supply.pmm page }
        held := s.held.erase page }
    else none
  | .write position byte =>
    if inHeld s.held position then
      some { s with memory := Function.update s.memory position byte }
    else none

/-- The runs from the boot page tables. -/
def tableSystem (layout : BootLayout) (boot : Memory × TableSupply) :
    TransitionSystem TableState TableEvent :=
  .ofFunction (fun s ↦ s = ⟨boot.1, boot.2, [layout.pml4Table], []⟩)
    (TableEvent.perform layout.pml4Table)

/-- The calls of `alloc_table` that an operation makes. -/
def TableEvent.calls (s : TableState) : TableEvent → List (Memory × TableSupply)
  | .map root virt _ flags =>
    if root ∈ s.roots then mapCalls flags (tablePath virt) root s.memory s.supply else []
  | .newPagedir => [(s.memory, s.supply)]
  | .alloc => []
  | .free _ => []
  | .write _ _ => []

/-- The tables that an operation takes come from the pool or are zero where they are. -/
def ZeroStep (s : TableState) : TableEvent → Prop
  | .map root virt _ _ =>
    root ∈ s.roots → ZeroSupply s.memory (missingTables s.memory root virt) s.supply
  | .newPagedir => ZeroSupply s.memory 1 s.supply
  | .alloc => True
  | .free _ => True
  | .write _ _ => True

/-- A table that a call returns has 512 zero entries, and is no table in use and no page that is
held. -/
def FreshCall (s : TableState) (call : Memory × TableSupply) : Prop :=
  ∀ table zeroed next, allocTable call.1 call.2 = some (table, zeroed, next) →
    (∀ index, entry zeroed table index = 0#64) ∧
      (∀ root ∈ s.roots, ¬ TableOf call.1 root table) ∧ table ∉ s.held

/-! ### The invariant -/

/-- What holds in every state of a run. -/
structure TableInvariant (kernelPml4 : Word) (s : TableState) : Prop where
  kernel : kernelPml4 ∈ s.roots
  spaces : Spaces (fun root ↦ root ∈ s.roots) s.memory s.supply
  held : HeldPages (fun root ↦ root ∈ s.roots) s.memory s.supply s.held

/-- What an operation leaves of the mappings that there were: all but that of the page it maps. -/
def KeepsMappings (s : TableState) (event : TableEvent) (next : TableState) : Prop :=
  ∀ root ∈ s.roots, ∀ page : VirtualPage,
    (∀ other virt phys flags, event = .map other virt phys flags → page ≠ virtualPage virt) →
      pageMap next.memory root page = pageMap s.memory root page

section Step

variable {kernelPml4 page : Word} {s next : TableState} {event : TableEvent}

theorem inHeld_iff {held : List Word} {position : ℕ} :
    inHeld held position = true ↔ ∃ page ∈ held, InPage page position := by
  rw [inHeld, List.any_eq_true]
  exact exists_congr fun page ↦ and_congr_right fun _ ↦ decide_eq_true_iff

/-- A write to a page that is held. -/
theorem TableInvariant.write (hinv : TableInvariant kernelPml4 s) {position : ℕ} (byte : BitVec 8)
    (hposition : inHeld s.held position = true) :
    TableInvariant kernelPml4 { s with memory := Function.update s.memory position byte } ∧
      ∀ root ∈ s.roots, ∀ path : List TableIndex, path.length ≤ 4 →
        tableAt (Function.update s.memory position byte) root path =
          tableAt s.memory root path := by
  obtain ⟨page, hpage, hinPage⟩ := inHeld_iff.mp hposition
  have hagree : ∀ root table, root ∈ s.roots → TableOf s.memory root table → ∀ other,
      InPage table other → Function.update s.memory position byte other = s.memory other := by
    intro root table hroot htable other hother
    refine Function.update_of_ne ?_ _ _
    rintro rfl
    have hne : table ≠ page := by
      rintro rfl
      exact hinv.held.unused table hpage root hroot htable
    exact not_inPage_of_ne (hinv.held.aligned page hpage) (hinv.spaces.pageAligned hroot htable) hne
      hother hinPage
  obtain ⟨hspaces, hsame⟩ :=
    hinv.spaces.congr hinv.spaces.ready (fun _ hfree ↦ Or.inl hfree) hagree
  refine ⟨⟨hinv.kernel, hspaces, hinv.held.grown (fun _ hfree ↦ hfree) ?_⟩, hsame⟩
  rintro root table hroot ⟨path, hlength, hreach⟩
  exact Or.inr ⟨root, hroot, path, hlength,
    (hsame root hroot path (by omega)).symm.trans hreach⟩

/-- Every operation keeps the invariant, and the mappings. Assumes: its tables come zeroed. -/
theorem TableInvariant.step (hinv : TableInvariant kernelPml4 s) (hzero : ZeroStep s event)
    (hstep : event.perform kernelPml4 s = some next) :
    TableInvariant kernelPml4 next ∧ KeepsMappings s event next := by
  cases event with
  | map root virt phys flags =>
    rw [TableEvent.perform] at hstep
    split_ifs at hstep with hroot
    obtain ⟨⟨memory, supply⟩, hmap, rfl⟩ := Option.map_eq_some_iff.mp hstep
    have hclean : CleanPath s.memory s.supply root virt :=
      (zeroSupply_iff hinv.spaces.ready).mp (hzero hroot)
    have hupdate := hinv.spaces.map hroot hclean.directories hmap
    refine ⟨⟨hinv.kernel, hupdate.spaces, hinv.held.update hupdate⟩, ?_⟩
    intro other hother page hne
    exact (hinv.spaces.map_pages hroot hclean hmap).others other hother page
      (hne root virt phys flags rfl)
  | newPagedir =>
    rw [TableEvent.perform] at hstep
    obtain ⟨⟨pml4, memory, supply⟩, hnew, rfl⟩ := Option.map_eq_some_iff.mp hstep
    rw [ZeroStep, zeroSupply_iff hinv.spaces.ready] at hzero
    have hcreated := newPagedir_created hinv.spaces hinv.kernel
      (cleanPml4_of_cleanTables kernelPml4 hinv.spaces.ready hzero) hnew
    have hroots : (fun root ↦ root ∈ pml4 :: s.roots) = fun root ↦ root = pml4 ∨ root ∈ s.roots :=
      funext fun root ↦ propext List.mem_cons
    refine ⟨⟨List.mem_cons_of_mem _ hinv.kernel, ?_, ?_⟩, ?_⟩
    · dsimp only
      rw [hroots]
      exact hcreated.spaces
    · refine hinv.held.grown (fun page hpage ↦ ((hcreated.rest page).mp hpage).1) ?_
      intro root table hroot htable
      rcases hcreated.tables root table (List.mem_cons.mp hroot) htable with rfl | hold
      · exact Or.inl hcreated.available
      · exact Or.inr hold
    · exact fun root hroot page _ ↦ hcreated.same root hroot (indicesOf page) (le_refl 4)
  | alloc =>
    rcases hinv.spaces.ready.region.pmmAlloc_cases with ⟨hnull, -⟩ | ⟨page, pmm, halloc, hne, htook⟩
    · rw [TableEvent.perform] at hstep
      rw [hnull] at hstep
      obtain rfl := Option.some.inj hstep
      exact ⟨hinv, fun _ _ _ _ ↦ rfl⟩
    · rw [TableEvent.perform] at hstep
      rw [halloc] at hstep
      dsimp only at hstep
      rw [if_neg hne, Option.some.injEq] at hstep
      subst hstep
      exact ⟨⟨hinv.kernel, hinv.spaces.take htook, hinv.held.alloc hinv.spaces htook⟩,
        fun _ _ _ _ ↦ rfl⟩
  | free page =>
    rw [TableEvent.perform] at hstep
    split_ifs at hstep with hpage
    obtain rfl := Option.some.inj hstep
    obtain ⟨hspaces, hheld⟩ := hinv.held.free hinv.spaces hpage
    exact ⟨⟨hinv.kernel, hspaces, hheld⟩, fun _ _ _ _ ↦ rfl⟩
  | write position byte =>
    rw [TableEvent.perform] at hstep
    split_ifs at hstep with hposition
    obtain rfl := Option.some.inj hstep
    obtain ⟨hnext, hsame⟩ := hinv.write byte hposition
    exact ⟨hnext, fun root hroot page _ ↦ hsame root hroot (indicesOf page) (le_refl 4)⟩

/-- A call that returns a zero table returns a fresh one. -/
theorem TableInvariant.freshCall_iff (hinv : TableInvariant kernelPml4 s)
    {call : Memory × TableSupply}
    (hcall : CallState (fun root ↦ root ∈ s.roots) s.supply call) :
    FreshCall s call ↔ ZeroCall call := by
  refine ⟨fun hall table zeroed next halloc ↦ (hall table zeroed next halloc).1, ?_⟩
  intro hall table zeroed next halloc
  have hallocated := hcall.spaces.ready.allocTable halloc
  refine ⟨hall table zeroed next halloc, fun root hroot htable ↦ ?_, fun hheld ↦ ?_⟩
  · exact hcall.spaces.used root table hroot htable hallocated.available
  · exact hinv.held.taken table hheld (hcall.available table hallocated.available)

/-- The tables that an operation takes are fresh exactly when what it takes from the page allocator
is zero. -/
theorem TableInvariant.freshCalls_iff (hinv : TableInvariant kernelPml4 s) (event : TableEvent) :
    (∀ call ∈ event.calls s, FreshCall s call) ↔ ZeroStep s event := by
  have hready := hinv.spaces.ready
  cases event with
  | map root virt phys flags =>
    rw [TableEvent.calls, ZeroStep]
    by_cases hroot : root ∈ s.roots
    · have hpath : [] ++ tablePath virt = tablePath virt := rfl
      have hcalls : (∀ call ∈ mapCalls flags (tablePath virt) root s.memory s.supply,
          ZeroCall call) ↔ CleanTables s.memory (missingBelow s.memory root (tablePath virt))
            s.supply := hinv.spaces.zeroCalls_iff hroot hpath rfl
      rw [if_pos hroot, imp_iff_right hroot, missingTables, zeroSupply_iff hready, ← hcalls]
      constructor
      · intro hall call hcall table zeroed next halloc
        exact (hall call hcall table zeroed next halloc).1
      · intro hall call hcall
        exact (hinv.freshCall_iff
          (hinv.spaces.callState hroot hpath rfl (hcalls.mp hall) call hcall)).mpr (hall call hcall)
    · rw [if_neg hroot]
      exact iff_of_true (fun call hcall ↦ by cases hcall) fun hmem ↦ absurd hmem hroot
  | newPagedir =>
    rw [TableEvent.calls, ZeroStep, zeroSupply_iff hready, List.forall_mem_singleton,
      hinv.freshCall_iff ⟨hinv.spaces, fun _ hpage ↦ hpage⟩]
    refine forall₄_congr fun new zeroed supply halloc ↦ ?_
    rw [← zeroPage_iff (hready.allocTable halloc).aligned]
    exact (and_iff_left trivial).symm
  | alloc => exact iff_of_true (fun call hcall ↦ by cases hcall) trivial
  | free page => exact iff_of_true (fun call hcall ↦ by cases hcall) trivial
  | write position byte => exact iff_of_true (fun call hcall ↦ by cases hcall) trivial

end Step

/-! ### Every run -/

/-- The tables of a step are fresh when and only when what it takes from the page allocator is zero,
and then no address resolves differently than before but those of the page it maps. -/
structure FreshStep (kernelPml4 : Word) (s : TableState) (event : TableEvent) : Prop where
  fresh : (∀ call ∈ event.calls s, FreshCall s call) ↔ ZeroStep s event
  resolves : ZeroStep s event → ∀ next, event.perform kernelPml4 s = some next →
    ∀ root ∈ s.roots, ∀ address,
      (∀ other virt phys flags, event = .map other virt phys flags →
        virtualPage address ≠ virtualPage virt) →
          vmmResolve root address next.memory = vmmResolve root address s.memory

/-- In every run from the boot page tables whose tables were zero when they came from the page
allocator, over memory of any contents, a step takes fresh tables exactly when its tables are zero
too. -/
theorem freshTables_run {layout : BootLayout} {memory : Memory} {before : Pmm}
    {memBase memSize : Word} (hbss : BssCleared layout memory)
    (hbase : 0x200000 ≤ (regionBase memBase).toNat)
    (hfits : (regionBase memBase).toNat + regionPages memSize * 4096 ≤ 2 ^ 52)
    {events : List TableEvent} {s : TableState}
    (hrun : ((tableSystem layout (bootState layout memory before memBase memSize)).restrict
      ZeroStep).Run events s) (event : TableEvent) : FreshStep layout.pml4Table s event := by
  have hregion : RegionReady (pmmInit before memBase memSize) :=
    regionReady_pmmInit before hbase hfits
  have hinv : TableInvariant layout.pml4Table s := by
    refine hrun.invariant (motive := TableInvariant layout.pml4Table) ?_ ?_
    · rintro state rfl
      have hroots : (fun root ↦ root ∈ [layout.pml4Table]) = fun root ↦ root = layout.pml4Table :=
        funext fun root ↦ propext List.mem_singleton
      refine ⟨List.mem_singleton_self _, ?_, HeldPages.nil _ _ _⟩
      dsimp only
      rw [hroots]
      exact (spaces_boot hbss hregion).1
    · exact fun state event next hstate hstep ↦ (hstate.step hstep.1 hstep.2).1
  refine ⟨hinv.freshCalls_iff event, ?_⟩
  intro hzero next hstep root hroot address havoids
  rw [vmmResolve_eq_resolveIn, vmmResolve_eq_resolveIn, resolveIn, resolveIn,
    (hinv.step hzero hstep).2 root hroot (virtualPage address) havoids]

/-! ### The pages behind the pool -/

/-- A machine with 8 MB from 8 MB on, right after boot. -/
def bootAbove (memory : Memory) : Memory × TableSupply :=
  bootState BootLayout.low memory Pmm.bss 0x800000#64 0x800000#64

/-- After 64 page directories the pool is used up, and nothing else has changed above the kernel
image. -/
theorem exists_run_bootAbove {memory : Memory} (hbss : BssCleared BootLayout.low memory)
    (count : ℕ) (hcount : count ≤ 64) : ∃ s,
    ((tableSystem BootLayout.low (bootAbove memory)).restrict ZeroStep).Run
        (List.replicate count .newPagedir) s ∧
      SupplyReady s.supply ∧ s.supply.ptPoolUsed.toNat = count * 4096 ∧
        s.supply.pmm = pmmInit Pmm.bss 0x800000#64 0x800000#64 ∧
          ∀ position, 0x200000 ≤ position → s.memory position = memory position := by
  induction count with
  | zero =>
    have hready : SupplyReady (bootAbove memory).2 := by
      have hboot := spaces_boot hbss regionReady_largeBoot
      simpa only [bootAbove] using hboot.1.ready
    have hunused : (bootAbove memory).2.ptPoolUsed = 0#64 := by rw [bootAbove, bootState]
    have hpmm : (bootAbove memory).2.pmm = pmmInit Pmm.bss 0x800000#64 0x800000#64 := by
      rw [bootAbove, bootState]
    refine ⟨⟨(bootAbove memory).1, (bootAbove memory).2, [BootLayout.low.pml4Table], []⟩,
      TransitionSystem.Run.start rfl, hready, ?_, hpmm, fun position hposition ↦ ?_⟩
    · rw [hunused]
      rfl
    · have hend := BootLayout.low.tables_end
      simp only [bootAbove, bootState]
      rw [setupPaging_apply_of_disjoint]
      exact Or.inr (by omega)
  | succ count ih =>
    obtain ⟨s, hrun, hready, hused, hpmm, hsame⟩ := ih (by omega)
    obtain ⟨pml4, next, supplyNext, hnew, hreadyNext, hpmmNext, husedNext, hsameNext⟩ :=
      vmmNewPagedir_pool BootLayout.low.pml4Table s.memory hready (by omega)
    have hstep : TableEvent.perform BootLayout.low.pml4Table s .newPagedir =
        some ⟨next, supplyNext, pml4 :: s.roots, s.held⟩ := by
      rw [TableEvent.perform, hnew]
      rfl
    refine ⟨⟨next, supplyNext, pml4 :: s.roots, s.held⟩, ?_, hreadyNext, ?_, hpmmNext.trans hpmm,
      ?_⟩
    · rw [List.replicate_succ']
      refine hrun.step (And.intro ?_ hstep)
      rw [ZeroStep, zeroSupply_iff hready]
      exact cleanTables_of_pool hready (by omega)
    · rw [husedNext, hused]
      omega
    · exact fun position hposition ↦ (hsameNext position hposition).trans (hsame position hposition)

/-- With the pool used up, the next table is the first page of the region, as it is. -/
theorem allocTable_bootAbove {supply : TableSupply} (memory : Memory) (hready : SupplyReady supply)
    (hused : supply.ptPoolUsed.toNat = 64 * 4096)
    (hpmm : supply.pmm = pmmInit Pmm.bss 0x800000#64 0x800000#64) :
    ∃ next, allocTable memory supply = some (0x800000#64, memory, next) := by
  have htaken := pagesTaken_pmmInit Pmm.bss 0x800000#64 0x800000#64 regionReady_largeBoot
  have htotal := toNat_totalPages_pmmInit Pmm.bss 0x800000#64 0x800000#64
  obtain ⟨pmm, hpage, -, -⟩ := htaken.pmmAlloc (by rw [htotal]; decide)
  have hfirst : pageFrom (pmmInit Pmm.bss 0x800000#64 0x800000#64).pmmBase 0 = 0x800000#64 := by
    decide
  rw [hfirst] at hpage
  refine ⟨{ supply with pmm := pmm }, ?_⟩
  rw [allocTable, if_neg (mt (pool_left_iff hready).mp (by omega)), hpmm, hpage]
  exact if_neg (by decide)

/-- On zero memory the 65th page directory gets the first page of the region, which is fresh. -/
theorem freshTables_run_first : ∃ s next,
    ((tableSystem BootLayout.low (bootAbove fun _ ↦ 0#8)).restrict ZeroStep).Run
        (List.replicate 64 .newPagedir) s ∧
      allocTable s.memory s.supply = some (0x800000#64, s.memory, next) ∧
        ∀ call ∈ TableEvent.newPagedir.calls s, FreshCall s call := by
  have hbss : BssCleared BootLayout.low fun _ ↦ 0#8 := fun _ _ _ ↦ rfl
  obtain ⟨s, hrun, hready, hused, hpmm, hsame⟩ := exists_run_bootAbove hbss 64 (le_refl 64)
  obtain ⟨next, halloc⟩ := allocTable_bootAbove s.memory hready hused hpmm
  have hfresh := (freshTables_run hbss (by decide) (by decide) hrun .newPagedir).fresh
  refine ⟨s, next, hrun, halloc, hfresh.mpr ?_⟩
  rw [ZeroStep, zeroSupply_iff hready]
  intro new zeroed after htable
  rw [halloc, Option.some.injEq, Prod.mk.injEq, Prod.mk.injEq] at htable
  obtain ⟨rfl, rfl, -⟩ := htable
  exact ⟨fun position hposition ↦ hsame position (le_trans (by decide) hposition.1), trivial⟩

/-! ### A page that is not zero -/

/-- A machine with 8 MB from 8 MB on, right after boot, with a byte of the first page set. -/
def dirtyBoot : Memory × TableSupply :=
  bootAbove fun position ↦ if position = 0x800000 then 1#8 else 0#8

/-- The table that the 65th page directory gets is the first page of the region, whose first entry
is 1. -/
theorem pagedir_not_fresh : ∃ s,
    (tableSystem BootLayout.low dirtyBoot).Run (List.replicate 64 .newPagedir) s ∧
      ¬ ∀ call ∈ TableEvent.newPagedir.calls s, FreshCall s call := by
  have hbss : BssCleared BootLayout.low
      fun position ↦ if position = 0x800000 then 1#8 else 0#8 := by
    intro position _ hlt
    have hend := BootLayout.low.tables_end
    exact if_neg (by omega)
  obtain ⟨s, hrun, hready, hused, hpmm, hsame⟩ := exists_run_bootAbove hbss 64 (le_refl 64)
  obtain ⟨next, halloc⟩ := allocTable_bootAbove s.memory hready hused hpmm
  refine ⟨s, hrun.of_restrict, fun hfresh ↦ ?_⟩
  obtain ⟨hentries, -⟩ := hfresh _ (List.mem_singleton_self _) _ _ _ halloc
  have haligned : PageAligned 0x800000#64 := rfl
  have hbyte := (zeroPage_iff haligned).mpr hentries 0x800000 ⟨by decide, by decide⟩
  rw [hsame 0x800000 (by decide)] at hbyte
  exact absurd hbyte (by decide)

end Colix.Mm
