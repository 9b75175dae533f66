import Mathlib.Algebra.BigOperators.Group.Finset.Basic
import Mathlib.Data.Fintype.Card
import Mathlib.Data.List.GetD
import Mathlib.Tactic.Common

/-!
# Linked queues threaded through a pool of slots

`Chain next head nodes` says that following `next` from `head` visits exactly `nodes` and then
ends. A chain is determined by its head, so its nodes are distinct and the list is acyclic
(`Chain.nodup`).

`QueuePool` is a pool of slots shared by a family of queues, each a chain with a tail pointer: the
queues are disjoint and the used slots are exactly the queued ones. `QueuePool.append` and
`QueuePool.remove` are its two operations, stated by what the pointers read afterwards, so that any
order of stores that produces those readings may use them.
-/

set_option autoImplicit false
set_option relaxedAutoImplicit false

namespace Colix.Foundation

variable {ι κ : Type*}

/-! ### Chains -/

/-- Following `next` from `head` visits exactly the listed nodes and then ends. -/
def Chain (next : ι → Option ι) : Option ι → List ι → Prop
  | head, [] => head = none
  | head, node :: rest => head = some node ∧ Chain next (next node) rest

/-- The nodes met by following `next` from `head`, at most `fuel` of them. -/
def walk (next : ι → Option ι) : ℕ → Option ι → List ι
  | 0, _ => []
  | _ + 1, none => []
  | fuel + 1, some node => node :: walk next fuel (next node)

variable {next other : ι → Option ι} {head : Option ι} {nodes : List ι}

theorem Chain.head_eq (hchain : Chain next head nodes) : head = nodes.head? := by
  cases nodes with
  | nil => exact hchain
  | cons node rest => exact hchain.1

/-- A chain is empty exactly when its head is null. -/
theorem Chain.head_eq_none_iff (hchain : Chain next head nodes) : head = none ↔ nodes = [] := by
  rw [hchain.head_eq, List.head?_eq_none_iff]

/-- Two pointer maps that agree on the nodes have the same chain. -/
theorem Chain.congr (hchain : Chain next head nodes)
    (hagree : ∀ node ∈ nodes, other node = next node) : Chain other head nodes := by
  induction nodes generalizing head with
  | nil => exact hchain
  | cons node rest ih =>
    refine ⟨hchain.1, ?_⟩
    rw [hagree node List.mem_cons_self]
    exact ih hchain.2 fun later hlater ↦ hagree later (List.mem_cons_of_mem _ hlater)

/-- The nodes of a chain are determined by its head. -/
theorem Chain.unique {first second : List ι} (hfirst : Chain next head first)
    (hsecond : Chain next head second) : first = second := by
  induction first generalizing head second with
  | nil =>
    rw [hsecond.head_eq_none_iff.mp hfirst]
  | cons node rest ih =>
    cases second with
    | nil =>
      have hnull := hfirst.1
      rw [show head = none from hsecond] at hnull
      cases hnull
    | cons node' rest' =>
      have hnode : node = node' := Option.some.inj (hfirst.1.symm.trans hsecond.1)
      subst hnode
      rw [ih hfirst.2 hsecond.2]

/-- A suffix of a chain is a chain from its own first node. -/
theorem Chain.suffix {before : List ι} {node : ι} {after : List ι}
    (hchain : Chain next head (before ++ node :: after)) :
    Chain next (some node) (node :: after) := by
  induction before generalizing head with
  | nil => exact ⟨rfl, hchain.2⟩
  | cons _ rest ih => exact ih hchain.2

/-- A chain that ends visits no node twice. -/
theorem Chain.nodup (hchain : Chain next head nodes) : nodes.Nodup := by
  induction nodes generalizing head with
  | nil => exact List.nodup_nil
  | cons node rest ih =>
    refine List.nodup_cons.mpr ⟨fun hmem ↦ ?_, ih hchain.2⟩
    -- a second visit would start the same chain again, which is longer than itself
    obtain ⟨before, after, rfl⟩ := List.append_of_mem hmem
    have hfirst : Chain next (some node) (node :: (before ++ node :: after)) := ⟨rfl, hchain.2⟩
    have hlength := congrArg List.length (hfirst.unique (Chain.suffix hchain.2))
    simp only [List.length_cons, List.length_append] at hlength
    omega

/-- With enough fuel, walking a chain gives its nodes. -/
theorem Chain.walk_eq (hchain : Chain next head nodes) {fuel : ℕ} (hfuel : nodes.length ≤ fuel) :
    walk next fuel head = nodes := by
  induction nodes generalizing head fuel with
  | nil =>
    rw [show head = none from hchain]
    cases fuel <;> rfl
  | cons node rest ih =>
    cases fuel with
    | zero => simp at hfuel
    | succ fuel =>
      rw [hchain.1, walk, ih hchain.2 (by simpa using hfuel)]

/-- Linking a node behind the last node of a chain extends the chain by it. -/
theorem Chain.link {last node : ι} (hchain : Chain next head nodes)
    (hlast : nodes.getLast? = some last) (hlink : other last = some node)
    (hend : other node = none)
    (hagree : ∀ earlier ∈ nodes, earlier ≠ last → other earlier = next earlier) :
    Chain other head (nodes ++ [node]) := by
  induction nodes generalizing head with
  | nil => simp at hlast
  | cons first rest ih =>
    refine ⟨hchain.1, ?_⟩
    have hnodup := hchain.nodup
    cases rest with
    | nil =>
      obtain rfl : first = last := by simpa using hlast
      exact ⟨hlink, hend⟩
    | cons second rest =>
      rw [List.getLast?_cons_cons] at hlast
      have hne : first ≠ last := by
        rintro rfl
        exact (List.nodup_cons.mp hnodup).1 (List.mem_of_getLast? hlast)
      rw [hagree first List.mem_cons_self hne]
      exact ih hchain.2 hlast fun earlier hmem ↦ hagree earlier (List.mem_cons_of_mem _ hmem)

/-! ### Pools of queues -/

/-- A family of disjoint queues threaded through a pool whose used slots are the queued ones. -/
structure QueuePool (next : ι → Option ι) (used : ι → Bool) (head tail : κ → Option ι)
    (queue : κ → List ι) : Prop where
  chain : ∀ q, Chain next (head q) (queue q)
  tail_eq : ∀ q, tail q = (queue q).getLast?
  used_iff : ∀ slot, used slot = true ↔ ∃ q, slot ∈ queue q
  disjoint : ∀ q r slot, slot ∈ queue q → slot ∈ queue r → q = r

namespace QueuePool

variable {used usedNext : ι → Bool} {tail headNext tailNext : κ → Option ι}
  {queue : κ → List ι} {headOf : κ → Option ι}

/-- Head and tail pointers are null together. -/
theorem head_none_iff_tail_none (hpool : QueuePool next used headOf tail queue) (q : κ) :
    headOf q = none ↔ tail q = none := by
  rw [(hpool.chain q).head_eq_none_iff, hpool.tail_eq, List.getLast?_eq_none_iff]

/-- A used slot lies in exactly one queue, and a slot in a queue is used. -/
theorem used_iff_existsUnique (hpool : QueuePool next used headOf tail queue) (slot : ι) :
    used slot = true ↔ ∃! q, slot ∈ queue q := by
  rw [hpool.used_iff]
  constructor
  · rintro ⟨q, hq⟩
    exact ⟨q, hq, fun r hr ↦ hpool.disjoint r q slot hr hq⟩
  · rintro ⟨q, hq, -⟩
    exact ⟨q, hq⟩

/-- A used slot is in a queue, so a slot not in use is no queue's tail. -/
theorem tail_ne_of_unused (hpool : QueuePool next used headOf tail queue) {slot : ι}
    (hunused : used slot = false) (q : κ) : tail q ≠ some slot := by
  intro hq
  rw [hpool.tail_eq] at hq
  rw [(hpool.used_iff slot).mpr ⟨q, List.mem_of_getLast? hq⟩] at hunused
  cases hunused

/-- Pointers outside the queues do not matter. -/
theorem relink (hpool : QueuePool next used headOf tail queue)
    (hagree : ∀ node, used node = true → other node = next node) :
    QueuePool other used headOf tail queue where
  chain q := (hpool.chain q).congr fun node hnode ↦
    hagree node ((hpool.used_iff node).mpr ⟨q, hnode⟩)
  tail_eq := hpool.tail_eq
  used_iff := hpool.used_iff
  disjoint := hpool.disjoint

variable [DecidableEq ι] [DecidableEq κ]

/-- Appending an unused slot to a queue, in terms of what the pointers read afterwards. -/
theorem append (hpool : QueuePool next used headOf tail queue) {slot : ι} {q : κ}
    (hunused : used slot = false)
    (hend : other slot = none)
    (hlink : ∀ last, tail q = some last → other last = some slot)
    (hnext : ∀ node, node ≠ slot → tail q ≠ some node → other node = next node)
    (hused : usedNext = Function.update used slot true)
    (hhead : headNext q = if tail q = none then some slot else headOf q)
    (htail : tailNext q = some slot)
    (hheadOther : ∀ r, r ≠ q → headNext r = headOf r)
    (htailOther : ∀ r, r ≠ q → tailNext r = tail r) :
    QueuePool other usedNext headNext tailNext
      (Function.update queue q (queue q ++ [slot])) := by
  have hfresh : ∀ r, slot ∉ queue r := fun r hmem ↦ by
    rw [(hpool.used_iff slot).mpr ⟨r, hmem⟩] at hunused
    cases hunused
  have hmem : ∀ r node, node ∈ Function.update queue q (queue q ++ [slot]) r ↔
      node ∈ queue r ∨ (r = q ∧ node = slot) := by
    intro r node
    by_cases hr : r = q
    · subst hr
      simp
    · simp [hr]
  refine ⟨fun r ↦ ?_, fun r ↦ ?_, fun node ↦ ?_, fun r s node hr hs ↦ ?_⟩
  · by_cases hr : r = q
    · subst hr
      rw [Function.update_self, hhead]
      cases hlast : tail r with
      | none =>
        have hempty : queue r = [] := by
          rw [← List.getLast?_eq_none_iff, ← hpool.tail_eq, hlast]
        rw [if_pos rfl, hempty]
        exact ⟨rfl, hend⟩
      | some last =>
        rw [if_neg (by simp)]
        refine (hpool.chain r).link (by rw [← hpool.tail_eq, hlast]) (hlink last hlast) hend ?_
        intro earlier hearlier hne
        refine hnext earlier (fun heq ↦ hfresh r (heq ▸ hearlier)) ?_
        rw [hlast]
        exact fun heq ↦ hne (Option.some.inj heq).symm
    · rw [Function.update_of_ne hr, hheadOther r hr]
      refine (hpool.chain r).congr fun node hnode ↦ ?_
      refine hnext node (fun heq ↦ hfresh r (heq ▸ hnode)) fun hlast ↦ hr ?_
      rw [hpool.tail_eq] at hlast
      exact hpool.disjoint r q node hnode (List.mem_of_getLast? hlast)
  · by_cases hr : r = q
    · subst hr
      rw [Function.update_self, htail, List.getLast?_append, List.getLast?_singleton]
      rfl
    · rw [Function.update_of_ne hr, htailOther r hr, hpool.tail_eq]
  · simp only [hmem]
    by_cases heq : node = slot
    · subst heq
      simp [hused]
    · rw [hused, Function.update_of_ne heq, hpool.used_iff]
      simp [heq]
  · rw [hmem] at hr hs
    rcases hr with hr | ⟨rfl, rfl⟩
    · rcases hs with hs | ⟨rfl, rfl⟩
      · exact hpool.disjoint r s node hr hs
      · exact absurd hr (hfresh r)
    · rcases hs with hs | ⟨rfl, -⟩
      · exact absurd hs (hfresh s)
      · rfl

/-- Removing the head of a queue, in terms of what the pointers read afterwards. -/
theorem remove (hpool : QueuePool next used headOf tail queue) {slot : ι} {q : κ}
    {rest : List ι} (hqueue : queue q = slot :: rest)
    (hused : usedNext = Function.update used slot false)
    (hhead : headNext q = next slot)
    (htail : tailNext q = if next slot = none then none else tail q)
    (hheadOther : ∀ r, r ≠ q → headNext r = headOf r)
    (htailOther : ∀ r, r ≠ q → tailNext r = tail r) :
    QueuePool next usedNext headNext tailNext (Function.update queue q rest) := by
  have hchain := hpool.chain q
  rw [hqueue] at hchain
  have hnotMem : slot ∉ rest := (List.nodup_cons.mp hchain.nodup).1
  have hsub : ∀ r node, node ∈ Function.update queue q rest r ↔ node ∈ queue r ∧ node ≠ slot := by
    intro r node
    by_cases hr : r = q
    · subst hr
      rw [Function.update_self, hqueue, List.mem_cons]
      constructor
      · intro hmem
        exact ⟨Or.inr hmem, fun heq ↦ hnotMem (heq ▸ hmem)⟩
      · rintro ⟨rfl | hmem, hne⟩
        · exact absurd rfl hne
        · exact hmem
    · rw [Function.update_of_ne hr]
      refine ⟨fun hmem ↦ ⟨hmem, fun heq ↦ hr ?_⟩, fun h ↦ h.1⟩
      exact hpool.disjoint r q slot (heq ▸ hmem) (by rw [hqueue]; exact List.mem_cons_self)
  refine ⟨fun r ↦ ?_, fun r ↦ ?_, fun node ↦ ?_, fun r s node hr hs ↦ ?_⟩
  · by_cases hr : r = q
    · subst hr
      rw [Function.update_self, hhead]
      exact hchain.2
    · rw [Function.update_of_ne hr, hheadOther r hr]
      exact hpool.chain r
  · by_cases hr : r = q
    · subst hr
      rw [Function.update_self, htail, hpool.tail_eq, hqueue]
      cases rest with
      | nil => rw [if_pos (show next slot = none from hchain.2), List.getLast?_nil]
      | cons second rest =>
        rw [if_neg (by rw [hchain.2.1]; simp), List.getLast?_cons_cons]
    · rw [Function.update_of_ne hr, htailOther r hr, hpool.tail_eq]
  · simp only [hsub]
    by_cases heq : node = slot
    · subst heq
      simp [hused]
    · rw [hused, Function.update_of_ne heq, hpool.used_iff]
      simp [heq]
  · exact hpool.disjoint r s node ((hsub r node).mp hr).1 ((hsub s node).mp hs).1

omit [DecidableEq κ] in
/-- The lengths of the queues add up to the number of used slots. -/
theorem sum_length [Fintype ι] [Fintype κ] (hpool : QueuePool next used headOf tail queue) :
    ∑ q, (queue q).length = (Finset.univ.filter fun slot ↦ used slot = true).card := by
  have hunion : (Finset.univ.filter fun slot ↦ used slot = true) =
      Finset.univ.biUnion fun q ↦ (queue q).toFinset := by
    ext slot
    simp [hpool.used_iff]
  rw [hunion, Finset.card_biUnion]
  · exact Finset.sum_congr rfl fun q _ ↦
      (List.toFinset_card_of_nodup (hpool.chain q).nodup).symm
  · intro q _ r _ hne
    refine Finset.disjoint_left.mpr fun slot hq hr ↦ hne ?_
    exact hpool.disjoint q r slot (List.mem_toFinset.mp hq) (List.mem_toFinset.mp hr)

end QueuePool

end Colix.Foundation
