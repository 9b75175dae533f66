import Mathlib.Data.Fintype.BigOperators
import Mathlib.Data.Fintype.Card
import Colix.Mm.Vmm

/-!
# Page tables are a map from virtual to physical pages

`pageMap` is the abstract state of a PML4: the physical page of each virtual page. When no table is
shared, `vmm_map` and `vmm_unmap` are updates of that map and `vmm_resolve` a lookup in it, so a
sequence of updates is the same sequence on the map (`pageTables_correct`).

`WellFormed.link` and `WellFormed.setLeaf` are the two changes of the tables that occur: a fresh
table hung under an empty entry, which leaves the map alone, and a store to a page table.
-/

set_option autoImplicit false
set_option relaxedAutoImplicit false

namespace Colix.Mm

open Foundation

/-! ### Virtual pages -/

/-- A virtual page: bits 47 to 12 of an address. -/
abbrev VirtualPage := BitVec 36

/-- The virtual page of an address. -/
def virtualPage (virt : Word) : VirtualPage :=
  virt.extractLsb' 12 36

/-- The indices of a virtual page. -/
def indicesOf (page : VirtualPage) : List TableIndex :=
  [page.extractLsb' 27 9, page.extractLsb' 18 9, page.extractLsb' 9 9, page.extractLsb' 0 9]

theorem pagePath_eq_indicesOf (virt : Word) : pagePath virt = indicesOf (virtualPage virt) := by
  simp only [pagePath, indicesOf, pml4Idx, pdpIdx, pdIdx, ptIdx, virtualPage, List.cons.injEq,
    and_true]
  refine ⟨?_, ?_, ?_, ?_⟩
  all_goals
    refine BitVec.eq_of_getLsbD_eq fun i hi ↦ ?_
    simp only [BitVec.getLsbD_setWidth, BitVec.getLsbD_ushiftRight, BitVec.getLsbD_extractLsb', hi,
      decide_true, Bool.true_and]
    rw [decide_eq_true (by omega), Bool.true_and]
    congr 1
    omega

/-- A virtual page is determined by its indices. -/
theorem indicesOf_injective : Function.Injective indicesOf := by
  intro first second heq
  simp only [indicesOf, List.cons.injEq, and_true] at heq
  obtain ⟨hpml4, hpdp, hpd, hpt⟩ := heq
  refine BitVec.eq_of_getLsbD_eq fun i hi ↦ ?_
  -- bit `i` lies in one of the four nine-bit fields
  have hfield : ∀ start, start ≤ i → i < start + 9 →
      first.extractLsb' start 9 = second.extractLsb' start 9 →
        first.getLsbD i = second.getLsbD i := by
    intro start hge hlt hsame
    have hbit := congrArg (BitVec.getLsbD · (i - start)) hsame
    simpa [BitVec.getLsbD_extractLsb', Nat.add_sub_cancel' hge,
      (by omega : i - start < 9)] using hbit
  rcases Nat.lt_or_ge i 9 with h | h
  · exact hfield 0 (by omega) (by omega) hpt
  rcases Nat.lt_or_ge i 18 with h' | h'
  · exact hfield 9 (by omega) (by omega) hpd
  rcases Nat.lt_or_ge i 27 with h'' | h''
  · exact hfield 18 (by omega) (by omega) hpdp
  · exact hfield 27 (by omega) (by omega) hpml4

/-- The page an address maps to, by virtual page. -/
def pageMap (memory : Memory) (pml4 : Word) (page : VirtualPage) : Option Word :=
  tableAt memory pml4 (indicesOf page)

/-- What a resolve makes of a lookup. -/
def resolveIn (map : VirtualPage → Option Word) (virt : Word) : Word :=
  match map (virtualPage virt) with
  | some page => page ||| (virt &&& 0xFFF#64)
  | none => 0#64

/-- A resolve is a lookup. -/
theorem vmmResolve_eq_resolveIn (pml4 virt : Word) (memory : Memory) :
    vmmResolve pml4 virt memory = resolveIn (pageMap memory pml4) virt := by
  rw [vmmResolve_eq, pagePath_eq_indicesOf]
  rfl

/-- A page-aligned address resolves to the page it is mapped to. -/
theorem vmmResolve_of_pageAligned {pml4 virt phys : Word} {memory : Memory}
    (haligned : PageAligned virt) (hpage : pageMap memory pml4 (virtualPage virt) = some phys) :
    vmmResolve pml4 virt memory = phys := by
  have hoffset : virt &&& 0xFFF#64 = 0#64 := by
    apply BitVec.eq_of_toNat_eq
    rw [BitVec.toNat_and, show (0xFFF#64 : Word).toNat = 2 ^ 12 - 1 from rfl,
      Nat.and_two_pow_sub_one_eq_mod]
    exact haligned
  rw [vmmResolve_eq_resolveIn, resolveIn, hpage, hoffset]
  exact BitVec.or_zero

/-- The page an address lies in. -/
def pageOf (virt : Word) : Word :=
  virt &&& ~~~0xFFF#64

theorem toNat_pageOf (virt : Word) : (pageOf virt).toNat = virt.toNat / 4096 * 4096 :=
  toNat_and_not_lowMask (by decide : 12 ≤ 64) virt

theorem pageAligned_pageOf (virt : Word) : PageAligned (pageOf virt) := by
  rw [PageAligned, toNat_pageOf, Nat.mul_mod_left]

/-- An address whose page is mapped to itself resolves to itself. -/
theorem vmmResolve_of_pageOf {pml4 virt : Word} {memory : Memory}
    (hpage : pageMap memory pml4 (virtualPage virt) = some (pageOf virt)) :
    vmmResolve pml4 virt memory = virt := by
  rw [vmmResolve_eq_resolveIn, resolveIn, hpage]
  change (virt &&& ~~~0xFFF#64) ||| (virt &&& 0xFFF#64) = virt
  refine BitVec.eq_of_getLsbD_eq fun i hi ↦ ?_
  simp only [BitVec.getLsbD_or, BitVec.getLsbD_and, BitVec.getLsbD_not, hi, decide_true,
    Bool.true_and]
  cases virt.getLsbD i <;> cases (0xFFF#64 : Word).getLsbD i <;> rfl

/-! ### Well-formed tables -/

/-- Every present entry above the page tables points to a table page of its own. -/
structure WellFormed (memory : Memory) (pml4 : Word) : Prop where
  aligned : PageAligned pml4
  tree : IsTree childOf (entry memory) 3 pml4

/-- A table reached from a PML4. -/
abbrev TableOf (memory : Memory) (pml4 table : Word) : Prop :=
  Reaches childOf (entry memory) 3 pml4 table

/-- Every table and page reached is page-aligned. -/
theorem pageAligned_of_tableAt {memory : Memory} {pml4 table : Word} (haligned : PageAligned pml4)
    {path : List TableIndex} (hreach : tableAt memory pml4 path = some table) :
    PageAligned table := by
  rcases List.eq_nil_or_concat' path with rfl | ⟨before, last, rfl⟩
  · cases hreach
    exact haligned
  · obtain ⟨parent, -, hchild⟩ := exists_descend_of_snoc hreach
    exact (pageAligned_of_childOf hchild).1

/-- What `alloc_table` promises: a page below 2^52 that is no table yet, with no other byte
changed. -/
structure FreshTable (memory : Memory) (pml4 new : Word) (next : Memory) : Prop where
  aligned : PageAligned new
  bound : new.toNat < 2 ^ 52
  unused : ¬ TableOf memory pml4 new
  frame : ∀ position, ¬ InPage new position → next position = memory position

/-- The page is zero. -/
def ZeroPage (memory : Memory) (table : Word) : Prop :=
  ∀ position, InPage table position → memory position = 0#8

/-- A page is zero when its 512 entries are. -/
theorem zeroPage_iff {memory : Memory} {table : Word} (haligned : PageAligned table) :
    ZeroPage memory table ↔ ∀ index, entry memory table index = 0#64 := by
  constructor
  · intro hzero index
    have hindex := index.isLt
    rw [entry, entryAddress_eq haligned, load_eq_zero_iff (by decide)]
    exact fun offset hoffset ↦ hzero _ ⟨by omega, by omega⟩
  · rintro hentries position ⟨hge, hlt⟩
    have hindex : (BitVec.ofNat 9 ((position - table.toNat) / 8)).toNat =
        (position - table.toNat) / 8 := by
      rw [BitVec.toNat_ofNat, Nat.mod_eq_of_lt (by omega)]
    have hentry := hentries (BitVec.ofNat 9 ((position - table.toNat) / 8))
    rw [entry, entryAddress_eq haligned, hindex, load_eq_zero_iff (by decide)] at hentry
    rw [show position = table.toNat + 8 * ((position - table.toNat) / 8) +
      (position - table.toNat) % 8 by omega]
    exact hentry _ (Nat.mod_lt _ (by decide))

/-- The entries of a zero page are empty. -/
theorem childOf_entry_of_zeroPage {memory : Memory} {table : Word} (haligned : PageAligned table)
    (hzero : ZeroPage memory table) (index : TableIndex) :
    childOf (entry memory table index) = none := by
  have hsame : entry memory table index = entry (fun _ ↦ 0#8) table index :=
    entry_congr haligned (fun position hposition ↦ hzero position hposition) index
  have hload : entry (fun _ ↦ 0#8) table index = 0#64 := load_zero
  rw [hsame, hload, childOf_zero]

section Changes

variable {memory zeroed next : Memory} {pml4 table new flags : Word} {path : List TableIndex}
  {index : TableIndex}

/-- The entries of the tables after a fresh one is hung under an entry. -/
theorem entry_linked {other : Word} (htable : PageAligned table) (hother : PageAligned other)
    (hnew : PageAligned new) (hne : other ≠ new)
    (hframe : ∀ position, ¬ InPage new position → zeroed position = memory position) :
    ∀ position, (other = table → position ≠ index) →
      entry (linked zeroed table index new flags) other position = entry memory other position := by
  intro position hposition
  have hzeroed : entry zeroed other position = entry memory other position :=
    entry_congr hother (fun _ hinPage ↦
      hframe _ (not_inPage_of_ne hnew hother hne hinPage)) position
  rw [linked, ← hzeroed]
  by_cases htables : other = table
  · subst htables
    exact entry_setEntry_of_index_ne hother (hposition rfl)
  · exact entry_setEntry_of_table_ne htable hother htables position

/-- The entry a fresh table is hung under points to it. -/
theorem childOf_entry_linked (zeroed : Memory) (table : Word) (index : TableIndex) (flags : Word)
    (hnew : PageAligned new) (hbound : new.toNat < 2 ^ 52) :
    childOf (entry (linked zeroed table index new flags) table index) = some new := by
  rw [linked, entry_setEntry_self, childOf_tableEntry, ptePhys_of_pageAligned hnew hbound]

/-- A fresh zero table has no entries after it is hung. -/
theorem childOf_entry_linked_new (index : TableIndex) (flags : Word) (htable : PageAligned table)
    (hnew : PageAligned new) (hne : new ≠ table) (hzero : ZeroPage zeroed new)
    (position : TableIndex) :
    childOf (entry (linked zeroed table index new flags) new position) = none := by
  rw [linked, entry_setEntry_of_table_ne htable hnew hne]
  exact childOf_entry_of_zeroPage hnew hzero position

/-- What the paths reach after a fresh table is hung under an empty entry: paths up to a given
length, when the fresh table is zero if it lies above that length. -/
theorem WellFormed.tableAt_linked (hwf : WellFormed memory pml4)
    (hfresh : FreshTable memory pml4 new zeroed) (hreach : tableAt memory pml4 path = some table)
    (hempty : childOf (entry memory table index) = none) (hlength : path.length < 3) {length : ℕ}
    (hbound : length ≤ 4) (hclean : path.length + 1 < length → ZeroPage zeroed new) :
    ∀ other : List TableIndex, other.length ≤ length →
      tableAt (linked zeroed table index new flags) pml4 other =
        if other = path ++ [index] then some new else tableAt memory pml4 other := by
  have htable : TableOf memory pml4 table := ⟨path, by omega, hreach⟩
  have haligned := pageAligned_of_tableAt hwf.aligned hreach
  have hne : ∀ other, TableOf memory pml4 other → other ≠ new := by
    rintro other hother rfl
    exact hfresh.unused hother
  refine hwf.tree.descend_link hreach hempty hlength
    (childOf_entry_linked zeroed table index flags hfresh.aligned hfresh.bound) ?_ ?_ hbound ?_
  · exact fun position hposition ↦ entry_linked haligned haligned hfresh.aligned (hne table htable)
      hfresh.frame position fun _ ↦ hposition
  · rintro other ⟨otherPath, hotherLength, hother⟩ hother_ne position
    exact entry_linked haligned (pageAligned_of_tableAt hwf.aligned hother) hfresh.aligned
      (hne other ⟨otherPath, hotherLength, hother⟩) hfresh.frame position
      fun heq ↦ absurd heq hother_ne
  · exact fun hlong ↦ childOf_entry_linked_new index flags haligned hfresh.aligned
      (hne table htable).symm (hclean hlong)

/-- Hanging a fresh table keeps the tables well-formed. Assumes: the table is zero unless it is a
page table. -/
theorem WellFormed.link (hwf : WellFormed memory pml4)
    (hfresh : FreshTable memory pml4 new zeroed) (hreach : tableAt memory pml4 path = some table)
    (hempty : childOf (entry memory table index) = none) (hlength : path.length < 3)
    (hclean : path.length + 1 < 3 → ZeroPage zeroed new) :
    WellFormed (linked zeroed table index new flags) pml4 :=
  ⟨hwf.aligned, hwf.tree.link hfresh.unused
    (hwf.tableAt_linked hfresh hreach hempty hlength (by decide) hclean)⟩

/-- Hanging a fresh zero table leaves the map alone. -/
theorem WellFormed.pageMap_link (hwf : WellFormed memory pml4)
    (hfresh : FreshTable memory pml4 new zeroed) (hreach : tableAt memory pml4 path = some table)
    (hempty : childOf (entry memory table index) = none) (hlength : path.length < 3)
    (hzero : ZeroPage zeroed new) :
    pageMap (linked zeroed table index new flags) pml4 = pageMap memory pml4 := by
  funext page
  rw [pageMap, hwf.tableAt_linked hfresh hreach hempty hlength (le_refl 4) (fun _ ↦ hzero) _
    (by rfl),
    if_neg]
  · rfl
  · intro heq
    have hlengths := congrArg List.length heq
    rw [List.length_append, List.length_singleton] at hlengths
    exact absurd hlengths (show 4 ≠ path.length + 1 by omega)

/-- A store to a page table is an update of the map, and keeps the tables well-formed. -/
theorem WellFormed.setLeaf (hwf : WellFormed memory pml4) (virt e : Word) {pt : Word}
    (hreach : tableAt memory pml4 (tablePath virt) = some pt) :
    WellFormed (setEntry memory pt (ptIdx virt) e) pml4 ∧
      pageMap (setEntry memory pt (ptIdx virt) e) pml4 =
        Function.update (pageMap memory pml4) (virtualPage virt) (childOf e) := by
  have haligned := pageAligned_of_tableAt hwf.aligned hreach
  have hagree : ∀ other, TableOf memory pml4 other → other ≠ pt → ∀ position,
      entry (setEntry memory pt (ptIdx virt) e) other position = entry memory other position := by
    rintro other ⟨_, -, hother⟩ hne position
    exact entry_setEntry_of_table_ne haligned (pageAligned_of_tableAt hwf.aligned hother) hne
      position
  have hframe : ∀ other, other ≠ ptIdx virt →
      entry (setEntry memory pt (ptIdx virt) e) pt other = entry memory pt other :=
    fun _ hne ↦ entry_setEntry_of_index_ne haligned hne
  refine ⟨⟨hwf.aligned, hwf.tree.congr (hwf.tree.descend_leaf hreach rfl hframe hagree)⟩, ?_⟩
  funext page
  have hvalue :=
    hwf.tree.descend_leaf_value hreach rfl (entry_setEntry_self memory pt e (ptIdx virt))
    hframe hagree (indicesOf page) rfl
  rw [pageMap, tableAt, hvalue, ← pagePath_eq, pagePath_eq_indicesOf]
  by_cases heq : page = virtualPage virt
  · rw [heq, if_pos rfl, Function.update_self]
  · rw [if_neg fun h ↦ heq (indicesOf_injective h), Function.update_of_ne heq]
    rfl

end Changes

/-! ### Mapping and unmapping -/

section Operations

variable {Supply : Type*} {allocTable : Memory → Supply → Option (Word × Memory × Supply)}
  {memory : Memory} {supply : Supply} {pml4 : Word}

/-- The contract of `alloc_table` for the tables of a PML4: it returns a fresh zero page. -/
def AllocContract (allocTable : Memory → Supply → Option (Word × Memory × Supply))
    (pml4 : Word) : Prop :=
  ∀ memory supply, WellFormed memory pml4 → ∃ new zeroed supplyNext,
    allocTable memory supply = some (new, zeroed, supplyNext) ∧
      FreshTable memory pml4 new zeroed ∧ ZeroPage zeroed new

/-- Under the contract, the steps of `vmm_map` before its last store keep the tables well-formed
and the map as it is. -/
theorem AllocContract.link (hcontract : AllocContract allocTable pml4) {flags : Word}
    {map : VirtualPage → Option Word} {path : List TableIndex} {index : TableIndex} {virt : Word}
    {supplyNext : Supply} {table new : Word} {zeroed : Memory}
    (hextends : path ++ [index] <+: tablePath virt)
    (hwf : WellFormed memory pml4 ∧ pageMap memory pml4 = map)
    (hstep : LinkStep allocTable pml4 flags path index memory supply table new zeroed supplyNext) :
    (WellFormed (linked zeroed table index new flags) pml4 ∧
      pageMap (linked zeroed table index new flags) pml4 = map) ∧
        tableAt (linked zeroed table index new flags) pml4 path = some table := by
  obtain ⟨hwf, hmap⟩ := hwf
  have hlength : path.length < 3 := by
    have hle := hextends.length_le
    rw [List.length_append, List.length_singleton] at hle
    exact hle
  obtain ⟨_, _, _, halloc, hfresh, hzero⟩ := hcontract memory supply hwf
  rw [hstep.allocated, Option.some.injEq, Prod.mk.injEq, Prod.mk.injEq] at halloc
  obtain ⟨rfl, rfl, rfl⟩ := halloc
  refine ⟨⟨hwf.link hfresh hstep.reached hstep.empty hlength fun _ ↦ hzero, ?_⟩, ?_⟩
  · rw [hwf.pageMap_link hfresh hstep.reached hstep.empty hlength hzero, hmap]
  · rw [hwf.tableAt_linked hfresh hstep.reached hstep.empty hlength (le_refl 4) (fun _ ↦ hzero) path
      (by omega), if_neg (by simp)]
    exact hstep.reached

/-- `vmm_map` is an update of the map. -/
theorem vmmMap_update (supply : Supply) (hcontract : AllocContract allocTable pml4)
    (hwf : WellFormed memory pml4)
    (virt phys : Word) {flags : Word} (hflags : flags &&& pteAddrMask = 0#64) :
    ∃ next supplyNext,
      vmmMap allocTable pml4 virt phys flags memory supply = some (next, supplyNext) ∧
        WellFormed next pml4 ∧ pageMap next pml4 =
          Function.update (pageMap memory pml4) (virtualPage virt)
            (some (phys &&& pteAddrMask)) := by
  have hmotive : WellFormed memory pml4 ∧ pageMap memory pml4 = pageMap memory pml4 := ⟨hwf, rfl⟩
  have hlink : ∀ path index before supply table new zeroed supplyNext,
      path ++ [index] <+: tablePath virt →
      WellFormed before pml4 ∧ pageMap before pml4 = pageMap memory pml4 →
      LinkStep allocTable pml4 flags path index before supply table new zeroed supplyNext →
        (WellFormed (linked zeroed table index new flags) pml4 ∧
          pageMap (linked zeroed table index new flags) pml4 = pageMap memory pml4) ∧
          tableAt (linked zeroed table index new flags) pml4 path = some table :=
    fun _ _ _ _ _ _ _ _ hextends hkept hstep ↦ hcontract.link hextends hkept hstep
  have halloc : ∀ before supply,
      WellFormed before pml4 ∧ pageMap before pml4 = pageMap memory pml4 →
        (allocTable before supply).isSome := by
    intro before supply hkept
    obtain ⟨_, _, _, halloc, -⟩ := hcontract before supply hkept.1
    rw [halloc]
    rfl
  obtain ⟨next, supplyNext, hmap⟩ := vmmMap_total phys
    (motive := fun before _ ↦ WellFormed before pml4 ∧ pageMap before pml4 = pageMap memory pml4)
    hlink halloc hmotive
  obtain ⟨before, pt, ⟨hbefore, hsame⟩, hreach, rfl⟩ := vmmMap_rule
    (motive := fun before _ ↦ WellFormed before pml4 ∧ pageMap before pml4 = pageMap memory pml4)
    hlink hmotive hmap
  obtain ⟨hafter, hupdate⟩ := hbefore.setLeaf virt
    ((phys &&& pteAddrMask) ||| (flags ||| ptePresent)) hreach
  rw [hsame, childOf_pageEntry hflags] at hupdate
  exact ⟨_, _, hmap, hafter, hupdate⟩

/-- `vmm_unmap` is a removal from the map. -/
theorem vmmUnmap_update (hwf : WellFormed memory pml4) (virt : Word) :
    WellFormed (vmmUnmap pml4 virt memory) pml4 ∧ pageMap (vmmUnmap pml4 virt memory) pml4 =
      Function.update (pageMap memory pml4) (virtualPage virt) none := by
  rw [vmmUnmap_eq]
  cases hreach : tableAt memory pml4 (tablePath virt) with
  | some pt =>
    obtain ⟨hafter, hupdate⟩ := hwf.setLeaf virt 0#64 hreach
    rw [childOf_zero] at hupdate
    exact ⟨hafter, hupdate⟩
  | none =>
    refine ⟨hwf, (Function.update_eq_self_iff.mpr ?_).symm⟩
    rw [pageMap, ← pagePath_eq_indicesOf, pagePath_eq, tableAt_snoc, hreach]
    rfl

/-! ### Sequences of updates -/

/-- A call that changes the tables. -/
inductive PageUpdate
  | map (virt phys flags : Word)
  | unmap (virt : Word)

/-- The effect of a call on the map. -/
def PageUpdate.apply (map : VirtualPage → Option Word) : PageUpdate → VirtualPage → Option Word
  | .map virt phys _ => Function.update map (virtualPage virt) (some (phys &&& pteAddrMask))
  | .unmap virt => Function.update map (virtualPage virt) none

/-- The flags of the call carry no address bits. -/
def PageUpdate.FlagsOk : PageUpdate → Prop
  | .map _ _ flags => flags &&& pteAddrMask = 0#64
  | .unmap _ => True

/-- The call on memory. -/
def PageUpdate.perform (allocTable : Memory → Supply → Option (Word × Memory × Supply))
    (pml4 : Word) (state : Memory × Supply) : PageUpdate → Option (Memory × Supply)
  | .map virt phys flags => vmmMap allocTable pml4 virt phys flags state.1 state.2
  | .unmap virt => some (vmmUnmap pml4 virt state.1, state.2)

/-- A sequence of calls on memory. -/
def performAll (allocTable : Memory → Supply → Option (Word × Memory × Supply)) (pml4 : Word) :
    Memory × Supply → List PageUpdate → Option (Memory × Supply)
  | state, [] => some state
  | state, update :: updates =>
    match update.perform allocTable pml4 state with
    | some next => performAll allocTable pml4 next updates
    | none => none

/-- One call keeps the tables well-formed and is the update of the map it stands for. -/
theorem PageUpdate.perform_update (hcontract : AllocContract allocTable pml4)
    {state : Memory × Supply} (hwf : WellFormed state.1 pml4) {update : PageUpdate}
    (hflags : update.FlagsOk) :
    ∃ next, update.perform allocTable pml4 state = some next ∧ WellFormed next.1 pml4 ∧
      pageMap next.1 pml4 = update.apply (pageMap state.1 pml4) := by
  cases update with
  | map virt phys flags =>
    obtain ⟨next, supplyNext, hmap, hafter, hupdate⟩ :=
      vmmMap_update state.2 hcontract hwf virt phys hflags
    exact ⟨(next, supplyNext), hmap, hafter, hupdate⟩
  | unmap virt =>
    obtain ⟨hafter, hupdate⟩ := vmmUnmap_update hwf virt
    exact ⟨(vmmUnmap pml4 virt state.1, state.2), rfl, hafter, hupdate⟩

/-- A sequence of calls is the same sequence of updates of the map. -/
theorem performAll_update (state : Memory × Supply) (hcontract : AllocContract allocTable pml4)
    {updates : List PageUpdate} (hwf : WellFormed state.1 pml4)
    (hflags : ∀ update ∈ updates, update.FlagsOk) :
    ∃ next, performAll allocTable pml4 state updates = some next ∧ WellFormed next.1 pml4 ∧
      pageMap next.1 pml4 = updates.foldl PageUpdate.apply (pageMap state.1 pml4) := by
  induction updates generalizing state with
  | nil => exact ⟨state, rfl, hwf, rfl⟩
  | cons update updates ih =>
    obtain ⟨middle, hfirst, hmiddle, hupdate⟩ :=
      update.perform_update hcontract hwf (hflags update List.mem_cons_self)
    obtain ⟨next, hrest, hnext, hmap⟩ :=
      ih middle hmiddle fun later hmem ↦ hflags later (List.mem_cons_of_mem _ hmem)
    refine ⟨next, ?_, hnext, ?_⟩
    · simp only [performAll, hfirst]
      exact hrest
    · rw [hmap, hupdate, List.foldl_cons]

/-! ### What a caller sees -/

/-- What a call does to the resolves of other addresses. -/
def OthersUnchanged (memory next : Memory) (pml4 virt : Word) : Prop :=
  ∀ other, virtualPage other ≠ virtualPage virt →
    vmmResolve pml4 other next = vmmResolve pml4 other memory

/-- Page tables behave as a map from virtual to physical pages. -/
structure PageTableCorrect (allocTable : Memory → Supply → Option (Word × Memory × Supply))
    (pml4 : Word) (memory : Memory) (supply : Supply) : Prop where
  map : ∀ virt phys flags, flags &&& pteAddrMask = 0#64 → ∃ next supplyNext,
    vmmMap allocTable pml4 virt phys flags memory supply = some (next, supplyNext) ∧
      WellFormed next pml4 ∧
      vmmResolve pml4 virt next = (phys &&& pteAddrMask) ||| (virt &&& 0xFFF#64) ∧
      OthersUnchanged memory next pml4 virt
  unmap : ∀ virt, WellFormed (vmmUnmap pml4 virt memory) pml4 ∧
    vmmResolve pml4 virt (vmmUnmap pml4 virt memory) = 0#64 ∧
    OthersUnchanged memory (vmmUnmap pml4 virt memory) pml4 virt
  /-- After any sequence of calls, a resolve is a lookup in the map built by the same updates. -/
  run : ∀ updates : List PageUpdate, (∀ update ∈ updates, update.FlagsOk) → ∃ next,
    performAll allocTable pml4 (memory, supply) updates = some next ∧ WellFormed next.1 pml4 ∧
      ∀ virt, vmmResolve pml4 virt next.1 =
        resolveIn (updates.foldl PageUpdate.apply (pageMap memory pml4)) virt

/-- Resolves of the other pages do not see an update of one page. -/
theorem othersUnchanged_of_update {next : Memory} {virt : Word} {value : Option Word}
    (hupdate : pageMap next pml4 =
      Function.update (pageMap memory pml4) (virtualPage virt) value) :
    OthersUnchanged memory next pml4 virt := by
  intro other hne
  rw [vmmResolve_eq_resolveIn, vmmResolve_eq_resolveIn, resolveIn, resolveIn, hupdate,
    Function.update_of_ne hne]

/-- Page tables are a map. Assumes: the tables are a tree, and `alloc_table` returns zeroed pages
below 2^52 that no table uses. -/
theorem pageTables_correct (hcontract : AllocContract allocTable pml4)
    (hwf : WellFormed memory pml4) : PageTableCorrect allocTable pml4 memory supply := by
  refine ⟨fun virt phys flags hflags ↦ ?_, fun virt ↦ ?_, fun updates hflags ↦ ?_⟩
  · obtain ⟨next, supplyNext, hmap, hafter, hupdate⟩ :=
      vmmMap_update supply hcontract hwf virt phys hflags
    refine ⟨next, supplyNext, hmap, hafter, ?_, othersUnchanged_of_update hupdate⟩
    rw [vmmResolve_eq_resolveIn, resolveIn, hupdate, Function.update_self]
  · obtain ⟨hafter, hupdate⟩ := vmmUnmap_update hwf virt
    refine ⟨hafter, ?_, othersUnchanged_of_update hupdate⟩
    rw [vmmResolve_eq_resolveIn, resolveIn, hupdate, Function.update_self]
  · obtain ⟨next, hrun, hafter, hmap⟩ :=
      performAll_update (memory, supply) hcontract hwf hflags
    refine ⟨next, hrun, hafter, fun virt ↦ ?_⟩
    rw [vmmResolve_eq_resolveIn, hmap]

end Operations

/-! ### An allocator that meets the contract -/

/-- The paths of at most three indices. -/
abbrev TablePaths :=
  Unit ⊕ Fin 512 ⊕ Fin 512 × Fin 512 ⊕ Fin 512 × Fin 512 × Fin 512

/-- The list of a path. -/
def TablePaths.toList : TablePaths → List TableIndex
  | .inl _ => []
  | .inr (.inl first) => [.ofFin first]
  | .inr (.inr (.inl (first, second))) => [.ofFin first, .ofFin second]
  | .inr (.inr (.inr (first, second, third))) => [.ofFin first, .ofFin second, .ofFin third]

theorem exists_tablePaths {path : List TableIndex} (hlength : path.length ≤ 3) :
    ∃ paths : TablePaths, paths.toList = path := by
  match path, hlength with
  | [], _ => exact ⟨.inl (), rfl⟩
  | [first], _ => exact ⟨.inr (.inl first.toFin), rfl⟩
  | [first, second], _ => exact ⟨.inr (.inr (.inl (first.toFin, second.toFin))), rfl⟩
  | [first, second, third], _ =>
    exact ⟨.inr (.inr (.inr (first.toFin, second.toFin, third.toFin))), rfl⟩

/-- The page with a number below 2^40. -/
def pageOfNumber (number : Fin (2 ^ 40)) : Word :=
  BitVec.ofNat 64 (number.val * 4096)

theorem toNat_pageOfNumber (number : Fin (2 ^ 40)) :
    (pageOfNumber number).toNat = number.val * 4096 := by
  have hnumber := number.isLt
  rw [pageOfNumber, BitVec.toNat_ofNat, Nat.mod_eq_of_lt (by omega)]

theorem card_tablePaths :
    Fintype.card TablePaths = 1 + (512 + (512 * 512 + 512 * (512 * 512))) := by
  rw [Fintype.card_sum, Fintype.card_sum, Fintype.card_sum, Fintype.card_prod, Fintype.card_prod,
    Fintype.card_prod, Fintype.card_fin, Fintype.card_unit]

/-- An injection of numbers below `count` into paths. -/
theorem le_card_of_injective {count : ℕ} {paths : Fin count → TablePaths}
    (hinjective : Function.Injective paths) : count ≤ Fintype.card TablePaths := by
  have hcard := Fintype.card_le_of_injective paths hinjective
  rwa [Fintype.card_fin] at hcard

/-- There are fewer tables than pages, so some page is no table. -/
theorem exists_unused_page (memory : Memory) (pml4 : Word) :
    ∃ number, ¬ TableOf memory pml4 (pageOfNumber number) := by
  by_contra hall
  push Not at hall
  choose path hlength hreach using hall
  choose paths hpaths using fun number ↦ exists_tablePaths (hlength number)
  have hinjective : Function.Injective paths := by
    intro first second heq
    have hsame := hreach first
    rw [← hpaths, heq, hpaths, hreach second, Option.some.injEq] at hsame
    have hnat := congrArg BitVec.toNat hsame
    rw [toNat_pageOfNumber, toNat_pageOfNumber] at hnat
    exact Fin.ext (by omega)
  have hcard := le_card_of_injective hinjective
  rw [card_tablePaths] at hcard
  omega

/-- An allocator that zeroes some page that no table uses. -/
noncomputable def unusedPageTable (pml4 : Word) (memory : Memory) (supply : Unit) :
    Option (Word × Memory × Unit) :=
  let new := pageOfNumber (exists_unused_page memory pml4).choose
  some (new, fun position ↦
    if new.toNat ≤ position ∧ position < new.toNat + 4096 then 0#8 else memory position, supply)

theorem allocContract_unusedPageTable (pml4 : Word) :
    AllocContract (unusedPageTable pml4) pml4 := by
  intro memory supply _
  have haddress := toNat_pageOfNumber (exists_unused_page memory pml4).choose
  have hnumber := (exists_unused_page memory pml4).choose.isLt
  refine ⟨_, _, _, rfl, ⟨?_, ?_, ?_, ?_⟩, ?_⟩
  · rw [PageAligned, haddress]
    exact Nat.mul_mod_left _ _
  · rw [haddress]
    omega
  · exact (exists_unused_page memory pml4).choose_spec
  · exact fun position houtside ↦ if_neg houtside
  · exact fun position hposition ↦ if_pos hposition

/-- A PML4 without entries, in zero memory. -/
theorem pageTables_correct_empty :
    PageTableCorrect (unusedPageTable 0x1000#64) 0x1000#64 (fun _ ↦ 0#8) () := by
  have haligned : PageAligned 0x1000#64 := rfl
  refine pageTables_correct (allocContract_unusedPageTable _) ⟨haligned, ?_⟩
  have hempty : ∀ path table, tableAt (fun _ ↦ 0#8) 0x1000#64 path = some table → path = [] := by
    rintro (_ | ⟨index, path⟩) table hreach
    · rfl
    · rw [tableAt, descend, childOf_entry_of_zeroPage haligned fun _ _ ↦ rfl] at hreach
      cases hreach
  intro first second table _ _ hfirst hsecond
  rw [hempty first table hfirst, hempty second table hsecond]

end Colix.Mm
