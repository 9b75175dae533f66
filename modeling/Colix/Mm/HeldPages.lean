import Colix.Mm.AddressSpace

/-!
# Pages that were handed out

The pages that callers of `pmm_alloc` hold: no page table lies in one, and none can be handed out
again. `HeldPages` is kept when page tables grow by pages that can be handed out
(`HeldPages.grown`), and by `pmm_alloc` and `pmm_free` of a page that is held.
-/

set_option autoImplicit false
set_option relaxedAutoImplicit false

namespace Colix.Mm

open Foundation

/-- The pages held are distinct, and apart from the tables and from what can be handed out. -/
structure HeldPages (roots : Word → Prop) (memory : Memory) (supply : TableSupply)
    (held : List Word) : Prop where
  nodup : held.Nodup
  aligned : ∀ page ∈ held, PageAligned page
  taken : ∀ page ∈ held, ¬ Available supply page
  unused : ∀ page ∈ held, ∀ root, roots root → ¬ TableOf memory root page

variable {roots rootsNext : Word → Prop} {memory next : Memory} {supply supplyNext : TableSupply}
  {held : List Word} {page : Word}

theorem HeldPages.nil (roots : Word → Prop) (memory : Memory) (supply : TableSupply) :
    HeldPages roots memory supply [] :=
  ⟨List.nodup_nil, by simp, by simp, by simp⟩

/-- The tables are those there were and pages that could be handed out. -/
theorem HeldPages.grown (hheld : HeldPages roots memory supply held)
    (havailable : ∀ page, Available supplyNext page → Available supply page)
    (htables : ∀ root table, rootsNext root → TableOf next root table →
      Available supply table ∨ ∃ owner, roots owner ∧ TableOf memory owner table) :
    HeldPages rootsNext next supplyNext held := by
  refine ⟨hheld.nodup, hheld.aligned,
    fun page hpage hnext ↦ hheld.taken page hpage (havailable page hnext), ?_⟩
  intro page hpage root hroot htable
  rcases htables root page hroot htable with hnew | ⟨owner, howner, hold⟩
  · exact hheld.taken page hpage hnew
  · exact hheld.unused page hpage owner howner hold

/-- A map or an unmap. -/
theorem HeldPages.update (hheld : HeldPages roots memory supply held) {root virt : Word}
    {value : Option Word}
    (hupdate : SpaceUpdate roots root virt value memory supply next supplyNext) :
    HeldPages roots next supplyNext held := by
  refine hheld.grown hupdate.available fun other table hother htable ↦ ?_
  rcases hupdate.tables other table hother htable with hold | hpage
  · exact Or.inr ⟨other, hother, hold⟩
  · exact Or.inl hpage

/-- What `pmm_alloc` hands out is apart from all that is in use. -/
theorem HeldPages.alloc (hheld : HeldPages roots memory supply held)
    (hspaces : Spaces roots memory supply) {pmm : Pmm} (htook : Took supply.pmm page pmm) :
    HeldPages roots memory { supply with pmm := pmm } (page :: held) := by
  have hsupply := htook.supply hspaces.ready
  refine ⟨?_, ?_, ?_, ?_⟩
  · exact List.nodup_cons.mpr ⟨fun hpage ↦ hheld.taken page hpage hsupply.available, hheld.nodup⟩
  · intro other hother
    rcases List.mem_cons.mp hother with rfl | hother
    · exact hspaces.ready.pageAligned hsupply.available
    · exact hheld.aligned other hother
  · intro other hother havailable
    obtain ⟨hold, hne⟩ := hsupply.rest other havailable
    rcases List.mem_cons.mp hother with rfl | hother
    · exact hne rfl
    · exact hheld.taken other hother hold
  · intro other hother root hroot htable
    rcases List.mem_cons.mp hother with rfl | hother
    · exact hspaces.used root other hroot htable hsupply.available
    · exact hheld.unused other hother root hroot htable

/-- What `pmm_free` makes available: the page named, besides what was available. -/
theorem available_of_pmmFree (hready : SupplyReady supply) (haligned : PageAligned page) :
    SupplyReady { supply with pmm := pmmFreePage supply.pmm page } ∧
      ∀ other, Available { supply with pmm := pmmFreePage supply.pmm page } other →
        Available supply other ∨ other = page := by
  obtain ⟨hregion, -, -, hfree⟩ := hready.region.pmmFree haligned
  refine ⟨⟨hregion, hready.pool_mod, hready.pool_end, hready.used_mod, hready.used_le⟩, ?_⟩
  rintro other (hpool | hother)
  · exact Or.inl (Or.inl hpool)
  · exact (hfree other hother).imp_left Or.inr

/-- Freeing a page that is held. -/
theorem HeldPages.free (hheld : HeldPages roots memory supply held)
    (hspaces : Spaces roots memory supply) (hpage : page ∈ held) :
    Spaces roots memory { supply with pmm := pmmFreePage supply.pmm page } ∧
      HeldPages roots memory { supply with pmm := pmmFreePage supply.pmm page }
        (held.erase page) := by
  obtain ⟨hready, havailable⟩ := available_of_pmmFree hspaces.ready (hheld.aligned page hpage)
  obtain ⟨hnext, -⟩ := hspaces.congr hready
    (fun other hother ↦ (havailable other hother).imp_right fun heq root hroot ↦ by
      rw [heq]
      exact hheld.unused page hpage root hroot) (fun _ _ _ _ _ _ ↦ rfl)
  refine ⟨hnext, hheld.nodup.erase page, ?_, ?_, ?_⟩
  · exact fun other hother ↦ hheld.aligned other (List.mem_of_mem_erase hother)
  · intro other hother hfree
    obtain ⟨hne, hmem⟩ := (hheld.nodup.mem_erase_iff).mp hother
    rcases havailable other hfree with hold | heq
    · exact hheld.taken other hmem hold
    · exact hne heq
  · exact fun other hother ↦ hheld.unused other (List.mem_of_mem_erase hother)

end Colix.Mm
