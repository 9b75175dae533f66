import Colix.Foundation.Execution
import Colix.Mm.VmmInitPool
import Colix.Mm.ZeroTables

/-!
# User access

The hardware lets user code reach an address when `PTE_USER` is set in all four entries on its path.
`vmm_map` puts the bit of its flags into the entry of the page and into the entries of the tables it
makes, and leaves the entries of the tables that are there as they are. `UserPath` is the condition
under which a map grants what its flags ask for: a user page finds no entry without `PTE_USER` above
it. `user_access_run` shows that it is exact.
-/

set_option autoImplicit false
set_option relaxedAutoImplicit false

namespace Colix.Mm

open Foundation

/-! ### The hardware walk -/

/-- `e & PTE_USER`. -/
def isUser (e : Word) : Bool := e &&& pteUser != 0#64

/-- An entry through which the walk grants user access. -/
def grantsUser (e : Word) : Bool := isPresent e && isUser e

/-- The walk of an address grants user access. -/
def userAccessible (pml4 virt : Word) (memory : Memory) : Bool :=
  let pml4e := entry memory pml4 (pml4Idx virt)
  let pdpe := entry memory (ptePhys pml4e) (pdpIdx virt)
  let pde := entry memory (ptePhys pdpe) (pdIdx virt)
  let pte := entry memory (ptePhys pde) (ptIdx virt)
  grantsUser pml4e && grantsUser pdpe && grantsUser pde && grantsUser pte

/-- The entries that are there on a path of indices from a table have `PTE_USER`. -/
def userBelow (memory : Memory) : Word → List TableIndex → Bool
  | _, [] => true
  | table, index :: path =>
    !isPresent (entry memory table index) ||
      (isUser (entry memory table index) &&
        userBelow memory (ptePhys (entry memory table index)) path)

/-- A map with `PTE_USER` finds it in all the directory entries that are there on the path of its
address. -/
def UserPath (memory : Memory) (pml4 virt flags : Word) : Prop :=
  isUser flags = true → userBelow memory pml4 (tablePath virt) = true

/-- What an entry points to, when the walk grants user access through it. -/
def userChild (e : Word) : Option Word :=
  if grantsUser e then some (ptePhys e) else none

/-- The page that user code reaches at a virtual page. -/
def userMap (memory : Memory) (pml4 : Word) (page : VirtualPage) : Option Word :=
  descend userChild (entry memory) pml4 (indicesOf page)

section Walk

variable {memory : Memory} {pml4 table virt e : Word} {path rest : List TableIndex}
  {index : TableIndex}

theorem isSome_descend_userChild (memory : Memory) (table : Word) (index : TableIndex)
    (path : List TableIndex) :
    (descend userChild (entry memory) table (index :: path)).isSome =
      (grantsUser (entry memory table index) &&
        (descend userChild (entry memory) (ptePhys (entry memory table index)) path).isSome) := by
  rw [descend, userChild]
  cases grantsUser (entry memory table index) <;> rfl

theorem userAccessible_eq (pml4 virt : Word) (memory : Memory) :
    userAccessible pml4 virt memory = (userMap memory pml4 (virtualPage virt)).isSome := by
  rw [userMap, ← pagePath_eq_indicesOf, pagePath, isSome_descend_userChild,
    isSome_descend_userChild, isSome_descend_userChild, isSome_descend_userChild]
  simp only [userAccessible, Bool.and_assoc, descend, Option.isSome_some, Bool.and_true]

theorem isUser_eq (e : Word) : isUser e = e.getLsbD 2 :=
  and_bitMask_ne_zero (w := 64) (by decide) e 2

theorem userChild_sub (e table : Word) (hchild : userChild e = some table) :
    childOf e = some table := by
  rw [userChild, grantsUser, Option.ite_none_right_eq_some, Bool.and_eq_true] at hchild
  rw [childOf, if_pos hchild.1.1]
  exact hchild.2

theorem userChild_of_child (hchild : childOf e = some table) :
    userChild e = if isUser e then some table else none := by
  rw [childOf, Option.ite_none_right_eq_some, Option.some.injEq] at hchild
  rw [userChild, grantsUser, hchild.1, hchild.2, Bool.true_and]

theorem not_isPresent_of_empty (hempty : childOf e = none) : isPresent e = false := by
  rw [childOf, ite_eq_right_iff] at hempty
  exact Bool.eq_false_iff.mpr fun hpresent ↦ by cases hempty hpresent

theorem userBelow_of_empty (hempty : childOf (entry memory table index) = none) :
    userBelow memory table (index :: rest) = true := by
  rw [userBelow, not_isPresent_of_empty hempty]
  rfl

theorem userBelow_of_clear (hclear : ∀ index, childOf (entry memory table index) = none) :
    userBelow memory table path = true := by
  cases path with
  | nil => rfl
  | cons index rest => exact userBelow_of_empty (hclear index)

/-- Behind the tables that are there. -/
theorem userBelow_append (hreach : tableAt memory pml4 path = some table) :
    userBelow memory pml4 (path ++ rest) =
      ((descend userChild (entry memory) pml4 path).isSome && userBelow memory table rest) := by
  induction path generalizing pml4 with
  | nil =>
    cases hreach
    rfl
  | cons first path ih =>
    rw [tableAt, descend] at hreach
    cases hchild : childOf (entry memory pml4 first) with
    | none =>
      rw [hchild] at hreach
      cases hreach
    | some next =>
      rw [hchild] at hreach
      have hboth := hchild
      rw [childOf, Option.ite_none_right_eq_some, Option.some.injEq] at hboth
      rw [List.cons_append, userBelow, hboth.1, hboth.2, descend, userChild_of_child hchild,
        ih hreach]
      cases isUser (entry memory pml4 first) <;> rfl

/-- A page-aligned address has no `PTE_USER`. -/
theorem isUser_of_pageAligned (haligned : PageAligned table) (hbound : table.toNat < 2 ^ 52) :
    isUser table = false := by
  rw [isUser_eq, ← ptePhys_of_pageAligned haligned hbound, ptePhys, BitVec.getLsbD_and]
  exact Bool.and_false _

/-- The entry that `vmm_map` makes for a table has the `PTE_USER` of the flags. -/
theorem isUser_tableEntry (flags : Word) (haligned : PageAligned table)
    (hbound : table.toNat < 2 ^ 52) : isUser (tableEntry table flags) = isUser flags := by
  have htable := isUser_of_pageAligned haligned hbound
  rw [isUser_eq] at htable ⊢
  rw [tableEntry, BitVec.getLsbD_or, BitVec.getLsbD_or, BitVec.getLsbD_or, htable,
    BitVec.getLsbD_and,
    isUser_eq]
  exact Bool.and_true _

/-- The entry that `vmm_map` makes for a page has the `PTE_USER` of the flags. -/
theorem isUser_pageEntry (phys flags : Word) :
    isUser ((phys &&& pteAddrMask) ||| (flags ||| ptePresent)) = isUser flags := by
  rw [isUser_eq, isUser_eq, BitVec.getLsbD_or, BitVec.getLsbD_and, BitVec.getLsbD_or,
    show pteAddrMask.getLsbD 2 = false from rfl, show ptePresent.getLsbD 2 = false from rfl,
    Bool.and_false, Bool.false_or, Bool.or_false]

end Walk

/-! ### What a map does to the walk -/

section Map

variable {memory next zeroed : Memory} {supply supplyNext : TableSupply}
  {pml4 table new virt flags phys : Word} {path : List TableIndex} {index : TableIndex}

/-- What holds while `vmm_map` makes tables that come zeroed: the walks are as they were, and so is
what decides whether a user page can be reached. -/
structure GrowingUser (pml4 virt flags : Word) (memory : Memory) (supply : TableSupply)
    (next : Memory) (supplyNext : TableSupply) : Prop
    extends GrowingZero (fun root ↦ root = pml4) pml4 virt memory supply next supplyNext where
  walks : userMap next pml4 = userMap memory pml4
  below : isUser flags = true →
    userBelow next pml4 (tablePath virt) = userBelow memory pml4 (tablePath virt)

/-- A table that comes zeroed changes the walk to its own path only. -/
theorem Spaces.walk_link (hspaces : Spaces (fun root ↦ root = pml4) memory supply)
    (hstep : LinkStep allocTable pml4 flags path index memory supply table new zeroed supplyNext)
    (hlength : path.length < 3) (hzero : ZeroPage zeroed new) {other : List TableIndex}
    (hother : other.length ≤ 4) (hne : other ≠ path ++ [index]) :
    descend userChild (entry (linked zeroed table index new flags)) pml4 other =
      descend userChild (entry memory) pml4 other := by
  have hallocated := hspaces.ready.allocTable hstep.allocated
  obtain ⟨hframe, hagree⟩ := hspaces.entry_link rfl hstep hlength
  refine (hspaces.wellFormed rfl).tree.restricted_barren userChild_sub hstep.reached hframe
    (fun reached ↦ hagree pml4 reached rfl) (by omega) hstep.empty (fun fresh hfresh ↦ ?_)
    hother hne
  rw [childOf_entry_linked zeroed table index flags hallocated.aligned hallocated.bound,
    Option.some.injEq] at hfresh
  rw [← hfresh]
  exact hspaces.clear_link rfl hstep hlength hzero

/-- One level of `vmm_map`. -/
theorem GrowingUser.link {before : Memory} {supplyBefore : TableSupply}
    (hstart : Spaces (fun root ↦ root = pml4) memory supply)
    (hextends : path ++ [index] <+: tablePath virt)
    (hgrowing : GrowingUser pml4 virt flags memory supply before supplyBefore)
    (hstep : LinkStep allocTable pml4 flags path index before supplyBefore table new zeroed
      supplyNext) :
    GrowingUser pml4 virt flags memory supply (linked zeroed table index new flags) supplyNext ∧
      tableAt (linked zeroed table index new flags) pml4 path = some table := by
  have hspaces := hgrowing.spaces
  have hlength := length_lt_of_extends hextends
  have hallocated := hspaces.ready.allocTable hstep.allocated
  obtain ⟨hzero, -⟩ := hgrowing.cleanPath.zero hextends hstep
  obtain ⟨hlinked, hreached⟩ := hgrowing.toGrowingZero.link hstart rfl hextends hstep
  refine ⟨⟨hlinked, ?_, fun huser ↦ ?_⟩, hreached⟩
  · rw [← hgrowing.walks]
    funext page
    refine hspaces.walk_link hstep hlength hzero (le_refl 4) fun heq ↦ ?_
    have hlengths := congrArg List.length heq
    rw [List.length_append, List.length_singleton] at hlengths
    exact absurd hlengths (show 4 ≠ path.length + 1 by omega)
  · obtain ⟨rest, hsplit⟩ := hextends
    have hentry : entry (linked zeroed table index new flags) table index = tableEntry new flags :=
      entry_setEntry_self zeroed table (tableEntry new flags) index
    have hchild := childOf_entry_linked zeroed table index flags hallocated.aligned
      hallocated.bound
    have hnew : userBelow (linked zeroed table index new flags) table (index :: rest) = true := by
      rw [childOf, Option.ite_none_right_eq_some, Option.some.injEq] at hchild
      rw [userBelow, hchild.2, hentry, isUser_tableEntry flags hallocated.aligned hallocated.bound,
        huser, userBelow_of_clear (hspaces.clear_link rfl hstep hlength hzero), Bool.and_true,
        Bool.or_true]
    have hwalk : descend userChild (entry (linked zeroed table index new flags)) pml4 path =
        descend userChild (entry before) pml4 path :=
      hspaces.walk_link hstep hlength hzero (by omega) (by simp)
    rw [← hgrowing.below huser, ← hsplit, List.append_assoc, List.singleton_append,
      userBelow_append hreached, userBelow_append hstep.reached, hnew, hwalk,
      userBelow_of_empty hstep.empty]

/-- What a map whose tables come zeroed does to user access: its own page is reached when the flags
ask for it and no entry above refuses, and the other pages are reached as before. -/
theorem userAccessible_map (hspaces : Spaces (fun root ↦ root = pml4) memory supply)
    (hclean : CleanPath memory supply pml4 virt)
    (hmap : vmmMap allocTable pml4 virt phys flags memory supply = some (next, supplyNext)) :
    userAccessible pml4 virt next = (isUser flags && userBelow memory pml4 (tablePath virt)) ∧
      ∀ other, virtualPage other ≠ virtualPage virt →
        userAccessible pml4 other next = userAccessible pml4 other memory := by
  obtain ⟨before, pt, hgrowing, hreach, rfl⟩ := vmmMap_rule
    (motive := GrowingUser pml4 virt flags memory supply)
    (fun _ _ _ _ _ _ _ _ hextends hgrowing hstep ↦ hgrowing.link hspaces hextends hstep)
    ⟨⟨hspaces.growing hclean.directories, hclean, fun _ _ ↦ rfl⟩, rfl, fun _ ↦ rfl⟩ hmap
  have hwellFormed := hgrowing.spaces.wellFormed rfl
  have haligned := pageAligned_of_tableAt hwellFormed.aligned hreach
  have hwalk : ∀ other : List TableIndex, other.length ≤ 4 →
      ¬ tablePath virt ++ [ptIdx virt] <+: other →
      descend userChild (entry (setEntry before pt (ptIdx virt)
        ((phys &&& pteAddrMask) ||| (flags ||| ptePresent)))) pml4 other =
          descend userChild (entry before) pml4 other :=
    hwellFormed.tree.restricted_update userChild_sub hreach
      (fun _ hne ↦ entry_setEntry_of_index_ne haligned hne)
      (fun reached ⟨_, _, hreached⟩ hne ↦ entry_setEntry_of_table_ne haligned
        (pageAligned_of_tableAt hwellFormed.aligned hreached) hne) (le_refl 3)
  constructor
  · have hbelow : userBelow before pml4 (tablePath virt ++ []) = _ := userBelow_append hreach
    rw [List.append_nil, userBelow, Bool.and_true] at hbelow
    have hshort : ¬ tablePath virt ++ [ptIdx virt] <+: tablePath virt := by
      intro hthrough
      have hle := hthrough.length_le
      rw [List.length_append, List.length_singleton] at hle
      omega
    rw [userAccessible_eq, userMap, ← pagePath_eq_indicesOf, pagePath_eq, descend_snoc,
      hwalk (tablePath virt) (by decide : 3 ≤ 4) hshort]
    cases hwalked : descend userChild (entry before) pml4 (tablePath virt) with
    | none =>
      rw [hwalked] at hbelow
      cases huser : isUser flags with
      | false => rfl
      | true =>
        rw [← hgrowing.below huser, hbelow]
        rfl
    | some reached =>
      obtain rfl : pt = reached :=
        Option.some.inj (hreach.symm.trans (descend_of_restricted userChild_sub hwalked))
      have hpresent : isPresent ((phys &&& pteAddrMask) ||| (flags ||| ptePresent)) = true := by
        simp [isPresent_eq]
      rw [hwalked] at hbelow
      rw [Option.bind_some, entry_setEntry_self, userChild, grantsUser, isUser_pageEntry, hpresent]
      cases huser : isUser flags with
      | false => rfl
      | true =>
        rw [← hgrowing.below huser, hbelow]
        rfl
  · intro other hne
    rw [userAccessible_eq, userAccessible_eq, ← hgrowing.walks, userMap,
      hwalk (indicesOf (virtualPage other)) (le_refl 4) fun hthrough ↦ hne ?_]
    · rfl
    · refine indicesOf_injective ?_
      rw [← pagePath_eq_indicesOf virt, pagePath_eq]
      exact (hthrough.eq_of_length rfl).symm

end Map

/-! ### Runs -/

/-- The runs of `vmm_map` and `vmm_unmap` on one page table. -/
def mapSystem (pml4 : Word) : TransitionSystem (Memory × TableSupply) PageUpdate :=
  .ofFunction (fun s ↦ Spaces (fun root ↦ root = pml4) s.1 s.2)
    fun s update ↦ update.perform allocTable pml4 s

/-- The tables that a call makes come zeroed. -/
def CleanUpdate (pml4 : Word) (s : Memory × TableSupply) : PageUpdate → Prop
  | .map virt _ _ => CleanPath s.1 s.2 pml4 virt
  | .unmap _ => True

section Run

variable {pml4 : Word} {s next : Memory × TableSupply} {update : PageUpdate}

/-- Every call whose tables come zeroed keeps the page table. -/
theorem spaces_update (hspaces : Spaces (fun root ↦ root = pml4) s.1 s.2)
    (hclean : CleanUpdate pml4 s update) (hstep : update.perform allocTable pml4 s = some next) :
    Spaces (fun root ↦ root = pml4) next.1 next.2 := by
  cases update with
  | map virt phys flags =>
    have hmap : vmmMap allocTable pml4 virt phys flags s.1 s.2 = some (next.1, next.2) := hstep
    exact (hspaces.map rfl hclean.directories hmap).spaces
  | unmap virt =>
    obtain rfl := Option.some.inj hstep
    exact (hspaces.unmap rfl virt).spaces

/-- In every page table that maps and unmaps with any flags build, from tables that come zeroed and
are accessed where they lie: the walk of an address grants user access right after a map exactly as
the flags ask when the map meets the condition, and no map changes it for another page. -/
theorem user_access_run {updates : List PageUpdate}
    (hrun : ((mapSystem pml4).restrict (CleanUpdate pml4)).Run updates s)
    {virt phys flags : Word} (hclean : CleanPath s.1 s.2 pml4 virt)
    (hmap : vmmMap allocTable pml4 virt phys flags s.1 s.2 = some next) :
    (userAccessible pml4 virt next.1 = isUser flags ↔ UserPath s.1 pml4 virt flags) ∧
      ∀ other, virtualPage other ≠ virtualPage virt →
        userAccessible pml4 other next.1 = userAccessible pml4 other s.1 := by
  have hspaces : Spaces (fun root ↦ root = pml4) s.1 s.2 := by
    refine hrun.invariant (motive := fun s ↦ Spaces (fun root ↦ root = pml4) s.1 s.2)
      (fun _ hstart ↦ hstart) ?_
    rintro state update after hspaces ⟨hclean, hstep⟩
    exact spaces_update hspaces hclean hstep
  obtain ⟨hhere, hothers⟩ := userAccessible_map hspaces hclean hmap
  refine ⟨?_, hothers⟩
  rw [hhere, UserPath]
  cases isUser flags with
  | false => exact iff_of_true rfl nofun
  | true => exact ⟨fun hbelow _ ↦ hbelow, fun hbelow ↦ hbelow rfl⟩

end Run

/-- An empty PML4 at 0x1000, in zero memory with the whole pool left. -/
theorem start_empty : (mapSystem 0x1000#64).start (fun _ ↦ 0#8, largeBoot.2) := by
  have hregion := regionReady_largeBoot
  have hready : SupplyReady largeBoot.2 :=
    ⟨hregion, BootLayout.low.pool_mod, BootLayout.low.pool_end, rfl, Nat.zero_le _⟩
  have haligned : PageAligned 0x1000#64 := rfl
  refine (spaces_of_zeroPage hready haligned (fun _ _ ↦ rfl) ?_).1
  rintro (⟨number, -, -, haddress⟩ | hfree)
  · have hpool : largeBoot.2.ptPool.toNat = 0x120000 := by decide
    have hpage : (0x1000#64 : Word).toNat = 0x1000 := rfl
    omega
  · have hbase : 0x200000 ≤ largeBoot.2.pmm.pmmBase.toNat := hregion.base_ge
    have hpage := hfree.inRegion.1
    rw [BitVec.toNat_ofNat, Nat.mod_eq_of_lt (by decide)] at hpage
    omega

/-- The directories above a user page that can be reached let a neighbour be reached too. -/
theorem userPath_of_accessible {pml4 virt other flags : Word} {memory : Memory}
    (haccess : userAccessible pml4 virt memory = true) (hpath : tablePath other = tablePath virt) :
    UserPath memory pml4 other flags := by
  intro _
  simp only [userAccessible, grantsUser, Bool.and_eq_true] at haccess
  obtain ⟨⟨⟨⟨-, hpml4⟩, -, hpdp⟩, -, hpd⟩, -⟩ := haccess
  rw [hpath]
  simp [tablePath, userBelow, hpml4, hpdp, hpd]

/-- A user page, a page for the kernel beside it, and another user page in the directories that are
there by then: user code reaches the first and the third. -/
theorem user_access_run_neighbours : ∃ s next,
    ((mapSystem 0x1000#64).restrict (CleanUpdate 0x1000#64)).Run
        [.map 0x400000#64 0x5000#64 7#64, .map 0x401000#64 0x6000#64 3#64] s ∧
      vmmMap allocTable 0x1000#64 0x402000#64 0x7000#64 7#64 s.1 s.2 = some next ∧
        userAccessible 0x1000#64 0x400000#64 next.1 = true ∧
          userAccessible 0x1000#64 0x401000#64 next.1 = false ∧
            userAccessible 0x1000#64 0x402000#64 next.1 = true := by
  have hspaces : Spaces (fun root ↦ root = 0x1000#64) (fun _ ↦ 0#8) largeBoot.2 := start_empty
  have hused : largeBoot.2.ptPoolUsed.toNat = 0 := by decide
  have haligned : PageAligned 0x1000#64 := rfl
  have hstart : ((mapSystem 0x1000#64).restrict (CleanUpdate 0x1000#64)).Run []
      (fun _ ↦ 0#8, largeBoot.2) := TransitionSystem.Run.start start_empty
  obtain ⟨memoryFirst, supplyFirst, hmapFirst, hpoolFirst⟩ := vmmMap_pool 0x1000#64 0x400000#64
    0x5000#64 7#64 (fun _ ↦ 0#8) hspaces.ready (by omega)
  have hcleanFirst : CleanPath (fun _ ↦ 0#8) largeBoot.2 0x1000#64 0x400000#64 :=
    cleanPath_of_pool _ _ hspaces.ready (by omega)
  have husedFirst := hpoolFirst.used_le
  obtain ⟨memorySecond, supplySecond, hmapSecond, hpoolSecond⟩ := vmmMap_pool 0x1000#64 0x401000#64
    0x6000#64 3#64 memoryFirst hpoolFirst.ready (by omega)
  have hcleanSecond : CleanPath memoryFirst supplyFirst 0x1000#64 0x401000#64 :=
    cleanPath_of_pool _ _ hpoolFirst.ready (by omega)
  have husedSecond := hpoolSecond.used_le
  obtain ⟨memoryThird, supplyThird, hmapThird, -⟩ := vmmMap_pool 0x1000#64 0x402000#64
    0x7000#64 7#64 memorySecond hpoolSecond.ready (by omega)
  have hcleanThird : CleanPath memorySecond supplySecond 0x1000#64 0x402000#64 :=
    cleanPath_of_pool _ _ hpoolSecond.ready (by omega)
  have hrunFirst : ((mapSystem 0x1000#64).restrict (CleanUpdate 0x1000#64)).Run
      [.map 0x400000#64 0x5000#64 7#64] (memoryFirst, supplyFirst) :=
    hstart.step ⟨hcleanFirst, hmapFirst⟩
  have hrunSecond : ((mapSystem 0x1000#64).restrict (CleanUpdate 0x1000#64)).Run
      [.map 0x400000#64 0x5000#64 7#64, .map 0x401000#64 0x6000#64 3#64]
        (memorySecond, supplySecond) := hrunFirst.step ⟨hcleanSecond, hmapSecond⟩
  obtain ⟨hfirst, -⟩ := user_access_run hstart hcleanFirst hmapFirst
  obtain ⟨hsecond, hkeptSecond⟩ := user_access_run hrunFirst hcleanSecond hmapSecond
  obtain ⟨hthird, hkeptThird⟩ := user_access_run hrunSecond hcleanThird hmapThird
  have huser : userAccessible 0x1000#64 0x400000#64 memoryFirst = true := hfirst.mpr fun _ ↦
    userBelow_of_clear fun index ↦ childOf_entry_of_zeroPage haligned (fun _ _ ↦ rfl) index
  have hkernel : userAccessible 0x1000#64 0x401000#64 memorySecond = false := hsecond.mpr nofun
  rw [← hkeptSecond 0x400000#64 (by decide)] at huser
  exact ⟨_, _, hrunSecond, hmapThird, (hkeptThird _ (by decide)).trans huser,
    (hkeptThird _ (by decide)).trans hkernel, hthird.mpr (userPath_of_accessible huser rfl)⟩

/-- A page for the kernel, and then its neighbour for user code. -/
def kernelFirst : Option (Memory × TableSupply) :=
  [PageUpdate.map 0x1000#64 0x5000#64 3#64].foldlM
    (fun s update ↦ update.perform allocTable 0x1000#64 s) (fun _ ↦ 0#8, largeBoot.2)

theorem kernelFirst_isSome : kernelFirst.isSome = true := by
  decide +kernel

def userSecond : Option (Memory × TableSupply) :=
  vmmMap allocTable 0x1000#64 0x2000#64 0x6000#64 7#64 (kernelFirst.get kernelFirst_isSome).1
    (kernelFirst.get kernelFirst_isSome).2

theorem userSecond_isSome : userSecond.isSome = true := by
  decide +kernel

/-- User code does not reach a page that was mapped for it. -/
theorem user_page_not_accessible : ¬ ∀ pml4 updates s, (mapSystem pml4).Run updates s →
    ∀ virt phys flags next, vmmMap allocTable pml4 virt phys flags s.1 s.2 = some next →
      userAccessible pml4 virt next.1 = isUser flags := by
  intro hall
  have hrun := TransitionSystem.Run.of_get start_empty kernelFirst_isSome
  have hgranted := hall 0x1000#64 _ _ hrun 0x2000#64 0x6000#64 7#64 _
    (Option.some_get userSecond_isSome).symm
  have hrefused :
      userAccessible 0x1000#64 0x2000#64 (userSecond.get userSecond_isSome).1 = false := by
    decide +kernel
  rw [hrefused] at hgranted
  exact absurd hgranted (by decide)

end Colix.Mm
