import Colix.Mm.AddressSpace

/-!
# Maps whose tables come zeroed

A map of an address needs the tables that are missing on its path, which `missingTables` counts.
When all of them come zeroed (`CleanPath`), `vmm_map` changes the mapping of its own virtual page
and no other: `Spaces.map_pages` says it of every address space.
-/

set_option autoImplicit false
set_option relaxedAutoImplicit false

namespace Colix.Mm

open Foundation

/-! ### Missing tables -/

/-- How many tables a path of indices from a table still needs. -/
def missingBelow (memory : Memory) : Word → List TableIndex → ℕ
  | _, [] => 0
  | table, index :: path =>
    match childOf (entry memory table index) with
    | some next => missingBelow memory next path
    | none => path.length + 1

/-- How many tables the path to the page table of an address still needs. -/
def missingTables (memory : Memory) (root virt : Word) : ℕ :=
  missingBelow memory root (tablePath virt)

/-- The tables that a map of an address makes come zeroed. -/
def CleanPath (memory : Memory) (supply : TableSupply) (root virt : Word) : Prop :=
  CleanTables memory (missingTables memory root virt) supply

section Missing

variable {memory : Memory} {supply : TableSupply} {root table virt : Word}
  {path rest : List TableIndex} {index : TableIndex}

/-- Behind the tables that are there. -/
theorem missingBelow_append (hreach : tableAt memory root path = some table) :
    missingBelow memory root (path ++ rest) = missingBelow memory table rest := by
  induction path generalizing root with
  | nil =>
    cases hreach
    rfl
  | cons first path ih =>
    rw [List.cons_append, missingBelow]
    rw [tableAt, descend] at hreach
    cases hchild : childOf (entry memory root first) with
    | none =>
      rw [hchild] at hreach
      cases hreach
    | some next =>
      rw [hchild] at hreach
      exact ih hreach

/-- From an empty entry on. -/
theorem missingBelow_of_empty (hempty : childOf (entry memory table index) = none) :
    missingBelow memory table (index :: rest) = rest.length + 1 := by
  rw [missingBelow, hempty]

/-- Below a table without entries. -/
theorem missingBelow_of_clear (hclear : ∀ index, childOf (entry memory table index) = none) :
    missingBelow memory table path = path.length := by
  cases path with
  | nil => rfl
  | cons index rest => exact missingBelow_of_empty (hclear index)

theorem missingBelow_le (memory : Memory) (table : Word) (path : List TableIndex) :
    missingBelow memory table path ≤ path.length := by
  induction path generalizing table with
  | nil => exact Nat.le_refl 0
  | cons index path ih =>
    rw [missingBelow]
    split
    next target _ => exact (ih target).trans (Nat.le_succ _)
    next => exact Nat.le_refl _

/-- The tables that are missing when a path leads to an empty entry. -/
theorem missingTables_of_empty (hextends : path ++ [index] <+: tablePath virt)
    (hreach : tableAt memory root path = some table)
    (hempty : childOf (entry memory table index) = none) :
    missingTables memory root virt = 3 - path.length := by
  obtain ⟨rest, hrest⟩ := hextends
  have hlength : path.length + 1 + rest.length = 3 := by
    have hlengths := congrArg List.length hrest
    rwa [List.length_append, List.length_append, List.length_singleton] at hlengths
  rw [missingTables, ← hrest, List.append_assoc, missingBelow_append hreach, List.singleton_append,
    missingBelow_of_empty hempty]
  omega

/-- The directories that are missing are among the tables that are. -/
theorem missingDirectories_le (memory : Memory) (root virt : Word) :
    missingDirectories memory root virt ≤ missingTables memory root virt := by
  rw [missingDirectories]
  split
  next hpml4 =>
    rw [tableAt_singleton] at hpml4
    have hmissing : missingTables memory root virt = 3 := missingBelow_of_empty hpml4
    omega
  next pdp hpdp =>
    split
    next hpd =>
      have hempty : childOf (entry memory pdp (pdpIdx virt)) = none := by
        rw [show [pml4Idx virt, pdpIdx virt] = [pml4Idx virt] ++ [pdpIdx virt] from rfl,
          tableAt_snoc,
          hpdp, Option.bind_some] at hpd
        exact hpd
      have hmissing : missingTables memory root virt = 3 - 1 :=
        missingTables_of_empty ⟨[pdIdx virt], rfl⟩ hpdp hempty
      rw [hmissing]
      exact le_of_eq_of_le rfl (by decide : 1 ≤ 3 - 1)
    next => exact Nat.zero_le _

/-- Fewer tables come zeroed when more do. -/
theorem CleanTables.mono {fewer more : ℕ} (hle : fewer ≤ more)
    (hclean : CleanTables memory more supply) : CleanTables memory fewer supply := by
  induction fewer generalizing more supply with
  | zero => trivial
  | succ fewer ih =>
    obtain ⟨more, rfl⟩ : ∃ count, more = count + 1 := ⟨more - 1, by omega⟩
    intro new zeroed next halloc
    obtain ⟨hzero, hrest⟩ := hclean new zeroed next halloc
    exact ⟨hzero, ih (by omega) hrest⟩

/-- Three pages of the pool are enough. -/
theorem cleanPath_of_pool (root virt : Word) (hready : SupplyReady supply)
    (hpool : supply.ptPoolUsed.toNat + 3 * 4096 ≤ 262144) : CleanPath memory supply root virt :=
  (cleanTables_of_pool hready hpool).mono (missingBelow_le memory root (tablePath virt))

theorem CleanPath.directories (hclean : CleanPath memory supply root virt) :
    CleanDirectories memory supply root virt :=
  hclean.mono (missingDirectories_le memory root virt)

end Missing

/-! ### An empty page table -/

/-- A zero page that cannot be handed out is an address space without mappings. -/
theorem spaces_of_zeroPage {memory : Memory} {supply : TableSupply} {pml4 : Word}
    (hready : SupplyReady supply) (haligned : PageAligned pml4) (hzero : ZeroPage memory pml4)
    (hused : ¬ Available supply pml4) :
    Spaces (fun root ↦ root = pml4) memory supply ∧
      ∀ table, TableOf memory pml4 table → table = pml4 := by
  have hempty : ∀ path table, tableAt memory pml4 path = some table → path = [] ∧ table = pml4 := by
    rintro (_ | ⟨index, path⟩) table hreach
    · exact ⟨rfl, (Option.some.inj hreach).symm⟩
    · rw [tableAt, descend, childOf_entry_of_zeroPage haligned hzero] at hreach
      cases hreach
  have htables : ∀ table, TableOf memory pml4 table → table = pml4 := by
    rintro table ⟨path, -, hreach⟩
    exact (hempty path table hreach).2
  refine ⟨⟨hready, ?_, IsTree.isForest ?_, ?_⟩, htables⟩
  · rintro root rfl
    exact haligned
  · intro first second table _ _ hfirst hsecond
    rw [(hempty first table hfirst).1, (hempty second table hsecond).1]
  · rintro root table rfl htable
    rw [htables table htable]
    exact hused

/-! ### What a map does to every mapping -/

/-- Mappings of other virtual pages stay as they are, and that of the address is the old one or the
new one in every address space. -/
structure PagesUpdated (roots : Word → Prop) (virt : Word) (value : Option Word)
    (memory next : Memory) : Prop where
  others : ∀ other, roots other → ∀ page, page ≠ virtualPage virt →
    pageMap next other page = pageMap memory other page
  here : ∀ other, roots other →
    pageMap next other (virtualPage virt) = pageMap memory other (virtualPage virt) ∨
      pageMap next other (virtualPage virt) = value

/-- What holds while `vmm_map` makes tables that come zeroed: no mapping has changed. -/
structure GrowingZero (roots : Word → Prop) (root virt : Word) (memory : Memory)
    (supply : TableSupply) (next : Memory) (supplyNext : TableSupply) : Prop
    extends Growing roots root virt memory supply next supplyNext where
  cleanPath : CleanPath next supplyNext root virt
  pages : ∀ other, roots other → pageMap next other = pageMap memory other

section Map

variable {roots : Word → Prop} {memory next zeroed : Memory} {supply supplyNext : TableSupply}
  {root table new virt flags phys : Word} {path : List TableIndex} {index : TableIndex}

/-- A table that comes zeroed has no entries when it is hung. -/
theorem Spaces.clear_link (hspaces : Spaces roots memory supply) (hroot : roots root)
    (hstep : LinkStep allocTable root flags path index memory supply table new zeroed supplyNext)
    (hlength : path.length < 3) (hzero : ZeroPage zeroed new) (position : TableIndex) :
    childOf (entry (linked zeroed table index new flags) new position) = none := by
  have hallocated := hspaces.ready.allocTable hstep.allocated
  have htable : TableOf memory root table := ⟨path, by omega, hstep.reached⟩
  have hne : new ≠ table := by
    rintro rfl
    exact hspaces.used root new hroot htable hallocated.available
  exact childOf_entry_linked_new index flags (hspaces.pageAligned hroot htable) hallocated.aligned
    hne hzero position

/-- A table that comes zeroed leaves every mapping as it is. -/
theorem Spaces.pageMap_link (hspaces : Spaces roots memory supply) (hroot : roots root)
    (hstep : LinkStep allocTable root flags path index memory supply table new zeroed supplyNext)
    (hlength : path.length < 3) (hzero : ZeroPage zeroed new) {other : Word}
    (hother : roots other) :
    pageMap (linked zeroed table index new flags) other = pageMap memory other := by
  have hallocated := hspaces.ready.allocTable hstep.allocated
  obtain ⟨hframe, hagree⟩ := hspaces.entry_link hroot hstep hlength
  funext page
  refine hspaces.forest.descend_link_other hroot hstep.reached hagree hlength hstep.empty
    (childOf_entry_linked zeroed table index flags hallocated.aligned hallocated.bound) hframe
    (hspaces.clear_link hroot hstep hlength hzero) hother (le_refl 4) fun heq ↦ ?_
  have hlengths := congrArg List.length heq
  rw [List.length_append, List.length_singleton] at hlengths
  exact absurd hlengths (show 4 ≠ path.length + 1 by omega)

/-- The table that a step of the map hangs comes zeroed, and so do those still missing after it. -/
theorem CleanPath.zero (hclean : CleanPath memory supply root virt)
    (hextends : path ++ [index] <+: tablePath virt)
    (hstep : LinkStep allocTable root flags path index memory supply table new zeroed supplyNext) :
    ZeroPage zeroed new ∧ CleanTables memory (2 - path.length) supplyNext := by
  have hlength := length_lt_of_extends hextends
  have hcount : missingTables memory root virt = (2 - path.length) + 1 := by
    rw [missingTables_of_empty hextends hstep.reached hstep.empty]
    omega
  rw [CleanPath, hcount] at hclean
  exact hclean new zeroed supplyNext hstep.allocated

/-- One level of `vmm_map`. -/
theorem GrowingZero.link {before : Memory} {supplyBefore : TableSupply}
    (hstart : Spaces roots memory supply) (hroot : roots root)
    (hextends : path ++ [index] <+: tablePath virt)
    (hgrowing : GrowingZero roots root virt memory supply before supplyBefore)
    (hstep : LinkStep allocTable root flags path index before supplyBefore table new zeroed
      supplyNext) :
    GrowingZero roots root virt memory supply (linked zeroed table index new flags) supplyNext ∧
      tableAt (linked zeroed table index new flags) root path = some table := by
  have hspaces := hgrowing.spaces
  have hlength := length_lt_of_extends hextends
  have hallocated := hspaces.ready.allocTable hstep.allocated
  obtain ⟨hlinked, hreached⟩ := hgrowing.toGrowing.link hstart hroot hextends hstep
  obtain ⟨hzero, hrest⟩ := hgrowing.cleanPath.zero hextends hstep
  refine ⟨⟨hlinked, ?_, fun other hother ↦ ?_⟩, hreached⟩
  · have hclear := hspaces.clear_link hroot hstep hlength hzero
    have hnew :
        tableAt (linked zeroed table index new flags) root (path ++ [index]) = some new := by
      rw [tableAt_snoc, hreached, Option.bind_some]
      exact childOf_entry_linked zeroed table index flags hallocated.aligned hallocated.bound
    have hmissing : missingTables (linked zeroed table index new flags) root virt =
        2 - path.length := by
      obtain ⟨rest, hsplit⟩ := hextends
      have hlengths := congrArg List.length hsplit
      rw [List.length_append, List.length_append, List.length_singleton] at hlengths
      rw [missingTables, ← hsplit, missingBelow_append hnew, missingBelow_of_clear hclear]
      exact Nat.eq_sub_of_add_eq' (by
        change path.length + 1 + rest.length = 3 at hlengths
        omega)
    rw [CleanPath, hmissing]
    exact (hspaces.cleanTables_link_iff hroot hstep hlength _).mpr hrest
  · rw [hspaces.pageMap_link hroot hstep hlength hzero hother, hgrowing.pages other hother]

/-- A store to a page table. -/
theorem Spaces.setLeaf_pages (hspaces : Spaces roots memory supply) (hroot : roots root) {pt : Word}
    (hreach : tableAt memory root (tablePath virt) = some pt) (e : Word) :
    PagesUpdated roots virt (childOf e) memory (setEntry memory pt (ptIdx virt) e) := by
  have htable : TableOf memory root pt := ⟨tablePath virt, le_refl 3, hreach⟩
  have haligned := hspaces.pageAligned hroot htable
  have hagree : ∀ other reached, roots other → TableOf memory other reached → reached ≠ pt →
      ∀ position, entry (setEntry memory pt (ptIdx virt) e) reached position =
        entry memory reached position :=
    fun _ _ hother hreached hne ↦
      entry_setEntry_of_table_ne haligned (hspaces.pageAligned hother hreached) hne
  have hall : ∀ other, roots other →
      pageMap (setEntry memory pt (ptIdx virt) e) other = pageMap memory other ∨
        pageMap (setEntry memory pt (ptIdx virt) e) other =
          Function.update (pageMap memory other) (virtualPage virt) (childOf e) := by
    intro other hother
    by_cases hreaches : TableOf memory other pt
    · have hsame := hspaces.forest.descend_of_reaches hroot hother hreach (le_refl 3) hreaches
      exact Or.inr ((hspaces.wellFormed hother).setLeaf virt e hsame).2
    · left
      funext page
      exact descend_of_not_reaches (fun reached ↦ hagree other reached hother) hreaches
        (indicesOf page) (le_refl 4)
  refine ⟨fun other hother page hne ↦ ?_, fun other hother ↦ ?_⟩
  · rcases hall other hother with hsame | hupdate
    · rw [hsame]
    · rw [hupdate, Function.update_of_ne hne]
  · rcases hall other hother with hsame | hupdate
    · exact Or.inl (by rw [hsame])
    · exact Or.inr (by rw [hupdate, Function.update_self])

/-- A map whose tables come zeroed changes the mapping of its virtual page only. -/
theorem Spaces.map_pages (hspaces : Spaces roots memory supply) (hroot : roots root)
    (hclean : CleanPath memory supply root virt)
    (hmap : vmmMap allocTable root virt phys flags memory supply = some (next, supplyNext)) :
    PagesUpdated roots virt (childOf ((phys &&& pteAddrMask) ||| (flags ||| ptePresent))) memory
      next := by
  obtain ⟨before, pt, hgrowing, hreach, rfl⟩ := vmmMap_rule
    (motive := GrowingZero roots root virt memory supply)
    (fun _ _ _ _ _ _ _ _ hextends hgrowing hstep ↦ hgrowing.link hspaces hroot hextends hstep)
    ⟨hspaces.growing hclean.directories, hclean, fun _ _ ↦ rfl⟩ hmap
  obtain ⟨hothers, hhere⟩ := hgrowing.spaces.setLeaf_pages hroot hreach
    ((phys &&& pteAddrMask) ||| (flags ||| ptePresent))
  refine ⟨fun other hother page hne ↦ ?_, fun other hother ↦ ?_⟩
  · rw [hothers other hother page hne, hgrowing.pages other hother]
  · rw [← hgrowing.pages other hother]
    exact hhere other hother

/-- An unmap changes the mapping of its virtual page only. -/
theorem Spaces.unmap_pages (hspaces : Spaces roots memory supply) (hroot : roots root)
    (virt : Word) : PagesUpdated roots virt none memory (vmmUnmap root virt memory) := by
  rw [vmmUnmap_eq]
  cases hreach : tableAt memory root (tablePath virt) with
  | some pt =>
    have hupdate := hspaces.setLeaf_pages hroot hreach 0#64
    rwa [childOf_zero] at hupdate
  | none => exact ⟨fun _ _ _ _ ↦ rfl, fun _ _ ↦ Or.inl rfl⟩

end Map

end Colix.Mm
