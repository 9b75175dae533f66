import Colix.Mm.HeldPages
import Colix.Mm.Pagedir
import Colix.Mm.VmmInitPool
import Colix.Mm.ZeroTables

/-!
# The tables that are handed out

`alloc_table` clears the pages of the pool, and hands out a page of the page allocator as it is. A
run takes tables by `vmm_map` and `vmm_new_pagedir`, and takes, frees and writes pages between.
`mapCalls` are the calls of `alloc_table` in one `vmm_map`.

`ZeroSupply` says of the pages that the next calls take from the page allocator that they are zero
where they are. In runs whose steps all meet it, every table is fresh exactly when the step that
takes it meets it too: `freshCalls_run`.
-/

set_option autoImplicit false
set_option relaxedAutoImplicit false

namespace Colix.Mm

open Foundation

/-! ### The calls of `alloc_table` -/

/-- The memory and the supply at each call of `alloc_table` by the levels of `vmm_map` that follow a
path of indices from a table. -/
def mapCalls (flags : Word) :
    List TableIndex → Word → Memory → TableSupply → List (Memory × TableSupply)
  | [], _, _, _ => []
  | index :: path, table, memory, supply =>
    let rest :=
      match nextTable allocTable table index flags memory supply with
      | none => []
      | some (next, memory, supply) => mapCalls flags path next memory supply
    if isPresent (entry memory table index) then rest else (memory, supply) :: rest

/-- The table that a call returns has 512 zero entries. -/
def ZeroCall (call : Memory × TableSupply) : Prop :=
  ∀ new zeroed next, allocTable call.1 call.2 = some (new, zeroed, next) →
    ∀ index, entry zeroed new index = 0#64

/-- Of the next `count` tables, those that do not come from the pool are zero where they are. -/
def ZeroSupply (memory : Memory) : ℕ → TableSupply → Prop
  | 0, _ => True
  | count + 1, s =>
    if s.ptPoolUsed + pageSize ≤ ptPoolSize then
      ZeroSupply memory count { s with ptPoolUsed := s.ptPoolUsed + pageSize }
    else
      match pmmAlloc s.pmm with
      | (page, pmm) =>
        page ≠ 0#64 → ZeroPage memory page ∧ ZeroSupply memory count { s with pmm := pmm }

/-- What has to be zero is what comes zeroed. -/
theorem zeroSupply_iff {memory : Memory} {supply : TableSupply} {count : ℕ}
    (hready : SupplyReady supply) :
    ZeroSupply memory count supply ↔ CleanTables memory count supply := by
  induction count generalizing supply with
  | zero => exact Iff.rfl
  | succ count ih =>
    have hleft := pool_left_iff hready
    rw [ZeroSupply, CleanTables]
    rcases allocTable_cases hready memory with
      ⟨hpool, halloc⟩ | ⟨hpool, halloc, hall⟩ | ⟨hpool, page, pmm, hpage, htook, halloc⟩
    · have hallocated := hready.allocTable halloc
      have hzero : CleanTables memory 1 supply := cleanTables_of_pool hready (by omega)
      rw [if_pos (hleft.mpr hpool), ih hallocated.ready]
      constructor
      · intro hrest new zeroed next hnew
        rw [halloc, Option.some.injEq, Prod.mk.injEq, Prod.mk.injEq] at hnew
        obtain ⟨rfl, rfl, rfl⟩ := hnew
        exact ⟨(hzero _ _ _ halloc).1, hrest⟩
      · exact fun hclean ↦ (hclean _ _ _ halloc).2
    · rw [if_neg (mt hleft.mp (by omega))]
      rcases hready.region.pmmAlloc_cases with ⟨hnull, -⟩ | ⟨page, pmm, -, -, htook⟩
      · simp [hnull, halloc]
      · exact absurd htook.free (hall page)
    · have hallocated := hready.allocTable halloc
      have hne : page ≠ 0#64 := by
        rintro rfl
        have hregion := htook.free.inRegion
        have hbase := hready.region.base_ge
        rw [BitVec.toNat_ofNat, Nat.zero_mod] at hregion
        omega
      rw [if_neg (mt hleft.mp (by omega)), hpage]
      simp only [ne_eq, hne, not_false_eq_true, forall_const, ih hallocated.ready]
      constructor
      · rintro hboth new zeroed next hnew
        rw [halloc, Option.some.injEq, Prod.mk.injEq, Prod.mk.injEq] at hnew
        obtain ⟨rfl, rfl, rfl⟩ := hnew
        exact hboth
      · exact fun hclean ↦ hclean _ _ _ halloc

section Calls

variable {roots : Word → Prop} {memory zeroed : Memory} {supply supplyNext : TableSupply}
  {root table new child virt flags : Word} {path rest : List TableIndex} {index : TableIndex}

/-- A level whose table is there makes no call. -/
theorem mapCalls_of_child (hchild : childOf (entry memory table index) = some child) :
    mapCalls flags (index :: rest) table memory supply =
      mapCalls flags rest child memory supply := by
  have hnext := nextTable_of_child flags supply hchild
  rw [childOf, Option.ite_none_right_eq_some] at hchild
  rw [mapCalls, if_pos hchild.1, hnext]

/-- A level whose table is missing makes a call, and none follows a panic. -/
theorem mapCalls_of_panic (hempty : childOf (entry memory table index) = none)
    (hpanic : allocTable memory supply = none) :
    mapCalls flags (index :: rest) table memory supply = [(memory, supply)] := by
  have habsent : ¬ isPresent (entry memory table index) = true := by
    intro hpresent
    rw [childOf, if_pos hpresent] at hempty
    cases hempty
  rw [mapCalls, if_neg habsent, nextTable, if_neg habsent, hpanic]

/-- A level whose table is missing makes a call, and the next level starts from the new table. -/
theorem mapCalls_of_empty (hempty : childOf (entry memory table index) = none)
    (halloc : allocTable memory supply = some (new, zeroed, supplyNext))
    (haligned : PageAligned new) (hbound : new.toNat < 2 ^ 52) :
    mapCalls flags (index :: rest) table memory supply =
      (memory, supply) :: mapCalls flags rest new (linked zeroed table index new flags)
        supplyNext := by
  have habsent : ¬ isPresent (entry memory table index) = true := by
    intro hpresent
    rw [childOf, if_pos hpresent] at hempty
    cases hempty
  have hchild := childOf_entry_linked zeroed table index flags haligned hbound
  rw [childOf, Option.ite_none_right_eq_some, Option.some.injEq] at hchild
  rw [mapCalls, if_neg habsent, nextTable, if_neg habsent, halloc]
  dsimp only
  rw [show setEntry zeroed table index (tableEntry new flags) = linked zeroed table index new flags
    from rfl, hchild.2]

/-- What a call finds: the address spaces, of which it will use what could be handed out. -/
structure CallState (roots : Word → Prop) (supply : TableSupply) (call : Memory × TableSupply) :
    Prop where
  spaces : Spaces roots call.1 call.2
  available : ∀ page, Available call.2 page → Available supply page

/-- Where the next level starts after a table that came zeroed was hung. -/
theorem Spaces.nextLevel (hspaces : Spaces roots memory supply) (hroot : roots root)
    (hextends : path ++ index :: rest = tablePath virt)
    (hstep : LinkStep allocTable root flags path index memory supply table new zeroed supplyNext)
    (hzero : ZeroPage zeroed new) :
    Spaces roots (linked zeroed table index new flags) supplyNext ∧
      tableAt (linked zeroed table index new flags) root (path ++ [index]) = some new ∧
        (CleanTables (linked zeroed table index new flags)
            (missingBelow (linked zeroed table index new flags) new rest) supplyNext ↔
          CleanTables memory rest.length supplyNext) := by
  have hthrough : path ++ [index] <+: tablePath virt :=
    ⟨rest, by rw [← hextends, List.append_assoc, List.singleton_append]⟩
  have hlength := length_lt_of_extends hthrough
  have hallocated := hspaces.ready.allocTable hstep.allocated
  obtain ⟨hlinked, -⟩ := hspaces.link hroot hstep hlength fun _ ↦ hzero
  refine ⟨hlinked, ?_, ?_⟩
  · rw [tableAt_snoc, hspaces.kept_link hroot hstep hlength hroot (by omega) hstep.reached,
      Option.bind_some]
    exact childOf_entry_linked zeroed table index flags hallocated.aligned hallocated.bound
  · rw [missingBelow_of_clear (hspaces.clear_link hroot hstep hlength hzero)]
    exact hspaces.cleanTables_link_iff hroot hstep hlength _

/-- Every call returns a zero table exactly when the tables that are missing come zeroed. -/
theorem Spaces.zeroCalls_iff (hspaces : Spaces roots memory supply) (hroot : roots root)
    (hextends : path ++ rest = tablePath virt) (hreach : tableAt memory root path = some table) :
    (∀ call ∈ mapCalls flags rest table memory supply, ZeroCall call) ↔
      CleanTables memory (missingBelow memory table rest) supply := by
  induction rest generalizing path table memory supply with
  | nil => exact iff_of_true nofun trivial
  | cons index rest ih =>
    have hsnoc : (path ++ [index]) ++ rest = tablePath virt := by
      rw [← hextends, List.append_assoc, List.singleton_append]
    cases hchild : childOf (entry memory table index) with
    | some child =>
      rw [mapCalls_of_child hchild, missingBelow, hchild]
      refine ih hspaces hsnoc ?_
      rw [tableAt_snoc, hreach, Option.bind_some, hchild]
    | none =>
      rw [missingBelow_of_empty hchild]
      cases halloc : allocTable memory supply with
      | none =>
        rw [mapCalls_of_panic hchild halloc]
        refine iff_of_true (fun call hcall ↦ ?_) fun new zeroed next hnew ↦ ?_
        · rw [List.mem_singleton.mp hcall]
          intro new zeroed next hnew
          rw [halloc] at hnew
          cases hnew
        · rw [halloc] at hnew
          cases hnew
      | some allocated =>
        obtain ⟨new, zeroed, supplyNext⟩ := allocated
        have hallocated := hspaces.ready.allocTable halloc
        have hstep : LinkStep allocTable root flags path index memory supply table new zeroed
            supplyNext := ⟨hreach, hchild, halloc⟩
        rw [mapCalls_of_empty hchild halloc hallocated.aligned hallocated.bound,
          List.forall_mem_cons]
        constructor
        · rintro ⟨hfirst, hrest⟩ other cleared next hnew
          have hzero := (zeroPage_iff hallocated.aligned).mpr (hfirst new zeroed supplyNext halloc)
          obtain ⟨hlinked, hlinkedReach, hclean⟩ := hspaces.nextLevel hroot hextends hstep hzero
          rw [halloc, Option.some.injEq, Prod.mk.injEq, Prod.mk.injEq] at hnew
          obtain ⟨rfl, rfl, rfl⟩ := hnew
          exact ⟨hzero, hclean.mp ((ih hlinked hsnoc hlinkedReach).mp hrest)⟩
        · intro hall
          obtain ⟨hzero, hrest⟩ := hall new zeroed supplyNext halloc
          obtain ⟨hlinked, hlinkedReach, hclean⟩ := hspaces.nextLevel hroot hextends hstep hzero
          refine ⟨fun other cleared next hnew ↦ ?_,
            (ih hlinked hsnoc hlinkedReach).mpr (hclean.mpr hrest)⟩
          rw [halloc, Option.some.injEq, Prod.mk.injEq, Prod.mk.injEq] at hnew
          obtain ⟨rfl, rfl, rfl⟩ := hnew
          exact (zeroPage_iff hallocated.aligned).mp hzero

/-- What the calls of a map find, when the tables that are missing come zeroed. -/
theorem Spaces.callState (hspaces : Spaces roots memory supply) (hroot : roots root)
    (hextends : path ++ rest = tablePath virt) (hreach : tableAt memory root path = some table)
    (hclean : CleanTables memory (missingBelow memory table rest) supply) :
    ∀ call ∈ mapCalls flags rest table memory supply, CallState roots supply call := by
  induction rest generalizing path table memory supply with
  | nil => nofun
  | cons index rest ih =>
    have hsnoc : (path ++ [index]) ++ rest = tablePath virt := by
      rw [← hextends, List.append_assoc, List.singleton_append]
    have hself : CallState roots supply (memory, supply) := ⟨hspaces, fun _ hpage ↦ hpage⟩
    cases hchild : childOf (entry memory table index) with
    | some child =>
      rw [missingBelow, hchild] at hclean
      rw [mapCalls_of_child hchild]
      refine ih hspaces hsnoc ?_ hclean
      rw [tableAt_snoc, hreach, Option.bind_some, hchild]
    | none =>
      rw [missingBelow_of_empty hchild] at hclean
      cases halloc : allocTable memory supply with
      | none =>
        rw [mapCalls_of_panic hchild halloc]
        intro call hcall
        rwa [List.mem_singleton.mp hcall]
      | some allocated =>
        obtain ⟨new, zeroed, supplyNext⟩ := allocated
        have hallocated := hspaces.ready.allocTable halloc
        obtain ⟨hzero, hrest⟩ := hclean new zeroed supplyNext halloc
        obtain ⟨hlinked, hlinkedReach, hlinkedClean⟩ :=
          hspaces.nextLevel hroot hextends ⟨hreach, hchild, halloc⟩ hzero
        rw [mapCalls_of_empty hchild halloc hallocated.aligned hallocated.bound]
        refine List.forall_mem_cons.mpr ⟨hself, fun call hcall ↦ ?_⟩
        have hlater := ih hlinked hsnoc hlinkedReach (hlinkedClean.mpr hrest) call hcall
        exact ⟨hlater.spaces, fun page hpage ↦
          ((hallocated.rest page).mp (hlater.available page hpage)).1⟩

end Calls

end Colix.Mm
