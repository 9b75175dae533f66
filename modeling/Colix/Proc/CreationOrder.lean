import Colix.Mm.UniformHeap
import Colix.Proc.ProcessTable

/-!
# The order of creations

An entry that was taken is never given up, so `alloc_proc` and `alloc_proc_slot` take the entries
one after another, and `next_pid` counts along: the process created after `n` others has entry `n`
and pid `n + 1`, whoever exits in between (`creations_in_order`). `proc_create_elf` returns NULL
exactly when 64 processes were created, and so does `proc_create` as long as the heap has no other
users: their stacks are blocks of one size, of which 255 fit.
-/

set_option autoImplicit false
set_option relaxedAutoImplicit false

namespace Colix.Proc

open Foundation Mm

/-! ### The next entry -/

/-- The pid and the entry of the process created after `n` others. -/
def nthCreation (n : ℕ) : Pid × ProcIndex :=
  (Int32.ofNat (n + 1), Fin.ofNat procMax n)

/-- The entries in use are the first ones. -/
def FirstInUse (k : Kernel) (count : ℕ) : Prop :=
  ∀ p : ProcIndex, (k.procTable p).state ≠ .unused ↔ p.val < count

section Next

variable {k : Kernel} {count : ℕ} {p : ProcIndex} {entryPoints : EntryPoints}

/-- The search takes the entry behind those in use. -/
theorem FirstInUse.allocProc (hfirst : FirstInUse k count) (halloc : allocProc k = some p) :
    p.val = count := by
  have hp : ¬ p.val < count := by
    rw [← hfirst p, not_not]
    exact state_of_allocProc halloc
  obtain ⟨-, index, hindex, hat, hbefore⟩ := List.find?_eq_some_iff_getElem.mp halloc
  rw [List.getElem_finRange] at hat
  subst hat
  by_contra hne
  have hless : count < index := by
    have hle : count ≤ index := Nat.le_of_not_lt hp
    exact Nat.lt_of_le_of_ne hle (Ne.symm hne)
  have hskipped := hbefore count hless
  rw [List.getElem_finRange] at hskipped
  have hused : (k.procTable ⟨count, by rw [List.length_finRange] at hindex; omega⟩).state ≠
      .unused := by
    intro hstate
    simp [hstate] at hskipped
  exact Nat.lt_irrefl count ((hfirst _).mp hused)

/-- The search fails when all entries are in use. -/
theorem FirstInUse.allocProc_eq_none_iff (hfirst : FirstInUse k count) :
    Proc.allocProc k = none ↔ procMax ≤ count := by
  rw [Proc.allocProc, List.find?_eq_none]
  constructor
  · intro hnone
    by_contra hless
    have hunused := hnone ⟨count, Nat.lt_of_not_le hless⟩ (List.mem_finRange _)
    refine Nat.lt_irrefl count ((hfirst ⟨count, Nat.lt_of_not_le hless⟩).mp fun hstate ↦ ?_)
    simp [hstate] at hunused
  · intro hfull p _
    have hused := (hfirst p).mpr (Nat.lt_of_lt_of_le p.isLt hfull)
    simpa using hused

/-- `proc_create` fills the entry that the search found. -/
theorem allocProc_of_procCreate {kstack entry : Word} {name : List Byte} {next : Kernel}
    (hcreate : procCreate entryPoints kstack name entry k = (some p, next)) :
    allocProc k = some p := by
  rw [procCreate] at hcreate
  cases halloc : allocProc k with
  | none => simp [halloc] at hcreate
  | some found =>
    by_cases hnull : kstack = 0#64
    · simp [halloc, hnull] at hcreate
    · simp only [halloc, if_neg hnull, Prod.mk.injEq] at hcreate
      exact hcreate.1

/-- `proc_create_elf` fills the entry that the search found, and returns NULL when there is
none. -/
theorem procCreateElf_fst (entryPoints : EntryPoints) (pages : ElfPages) (entry : Word)
    (k : Kernel) : (procCreateElf entryPoints pages entry k).1 = allocProc k := by
  rw [procCreateElf, allocProcSlot, allocProc]
  cases (List.finRange procMax).find? fun i ↦ (k.procTable i).state == .unused <;> rfl

end Next

/-! ### Every run -/

/-- The entries in use are those of the creations, which came in order. -/
structure OrderInvariant (events : List TableEvent) (s : TableState) : Prop where
  table : TableInvariant events s
  first : FirstInUse s.kernel (creations events).length
  order : creations events = (List.range (creations events).length).map nthCreation

section Invariant

variable {events : List TableEvent} {event : TableEvent} {s next : TableState}
  {entryPoints : EntryPoints} {p : ProcIndex}

/-- A step that creates nothing. -/
theorem OrderInvariant.kept (hinv : OrderInvariant events s)
    (hkept : IdentitiesKept s.kernel next.kernel) (htable : TableInvariant (events ++ [event]) next)
    (hnone : event.created = none) : OrderInvariant (events ++ [event]) next := by
  have hsame : creations (events ++ [event]) = creations events := by
    rw [creations_append, hnone, Option.toList_none, List.append_nil]
  refine ⟨htable, fun q ↦ ?_, ?_⟩
  · rw [hsame, ← hinv.first q, ne_eq, ne_eq, hkept.unused_iff]
  · rw [hsame]
    exact hinv.order

/-- A step that creates a process in the entry the search found. -/
theorem OrderInvariant.added (hinv : OrderInvariant events s) (halloc : allocProc s.kernel = some p)
    (hadded : ProcessAdded s.kernel next.kernel p)
    (htable : TableInvariant (events ++ [event]) next)
    (hcreated : event.created = some ((next.kernel.procTable p).pid, p)) :
    OrderInvariant (events ++ [event]) next := by
  have hcount := hinv.first.allocProc halloc
  have hmore : creations (events ++ [event]) =
      creations events ++ [((next.kernel.procTable p).pid, p)] := by
    rw [creations_append, hcreated, Option.toList_some]
  have hlength : (creations (events ++ [event])).length = (creations events).length + 1 := by
    rw [hmore, List.length_append, List.length_singleton]
  have hnew : ((next.kernel.procTable p).pid, p) = nthCreation (creations events).length := by
    have hnext := hinv.table.pids.nextPid_eq
    rw [← hinv.table.count, ← hcount] at hnext
    rw [nthCreation, ← hcount, Prod.mk.injEq]
    have hsmall : p.val < 64 := p.isLt
    refine ⟨?_, Fin.ext (Nat.mod_eq_of_lt hsmall).symm⟩
    rw [hadded.pid_added, ← Int32.toInt_inj, hnext,
      Int32.toInt_ofNat_of_lt (show p.val + 1 < 2 ^ 31 by omega)]
    push_cast
    rfl
  refine ⟨htable, fun q ↦ ?_, ?_⟩
  · rw [hlength]
    by_cases heq : q = p
    · subst heq
      rw [hadded.used_after, hcount]
      exact iff_of_true (fun h ↦ ProcState.noConfusion h) (Nat.lt_succ_self _)
    · have hne : q.val ≠ (creations events).length := by
        rw [← hcount]
        exact fun hval ↦ heq (Fin.ext hval)
      rw [hadded.procTable_of_ne q heq, hinv.first q]
      omega
  · rw [hlength, List.range_succ, List.map_append, ← hinv.order, hmore, hnew]
    rfl

/-- The step lemma. -/
theorem OrderInvariant.step (hinv : OrderInvariant events s)
    (hstep : (tableSystem entryPoints).step s event next) :
    OrderInvariant (events ++ [event]) next := by
  have htable := hinv.table.step hstep
  have hcurrent := hinv.table.pids.current
  cases event with
  | step event =>
    obtain ⟨hstack, rfl⟩ := hstep
    exact hinv.kept (identitiesKept_perform hcurrent hstack) htable rfl
  | create name entry created =>
    obtain ⟨result, hcreate, rfl⟩ := hstep
    obtain ⟨blocks, hheap⟩ := hinv.table.heap
    obtain ⟨result', next', hcreate', -, hcases⟩ := createOnHeap_cases hheap entryPoints name entry
    rw [hcreate', Option.some.injEq, Prod.mk.injEq] at hcreate
    obtain ⟨rfl, rfl⟩ := hcreate
    rcases hcases with ⟨rfl, rfl⟩ | ⟨p, rfl, hadded⟩
    · exact hinv.kept (IdentitiesKept.refl hcurrent) htable rfl
    · refine hinv.added ?_ hadded htable rfl
      rw [createOnHeap] at hcreate'
      cases halloc : allocProc s.kernel with
      | none => simp [halloc] at hcreate'
      | some found =>
        cases hkmalloc : kmalloc s.heap.heap kstackSize with
        | none => simp [halloc, hkmalloc] at hcreate'
        | some allocated =>
          obtain ⟨kstack, heap⟩ := allocated
          simp only [halloc, hkmalloc, Option.some.injEq, Prod.mk.injEq] at hcreate'
          rw [← halloc]
          exact allocProc_of_procCreate (Prod.ext hcreate'.1 rfl)
  | createElf pages entry created =>
    obtain ⟨rfl, rfl⟩ := hstep
    have hfst := procCreateElf_fst entryPoints pages entry s.kernel
    rcases hcreate : procCreateElf entryPoints pages entry s.kernel with ⟨_ | p, after⟩
    · rcases procCreateElf_cases entryPoints pages entry s.kernel with hfail | ⟨p, -, hcases⟩
      · rw [hcreate] at hfail
        cases hfail
        rw [hcreate] at htable
        exact hinv.kept (IdentitiesKept.refl hcurrent) htable rfl
      · rw [hcases] at hcreate
        cases hcreate
    · rw [hcreate] at hfst htable
      exact hinv.added hfst.symm (processAdded_procCreateElf hcreate) htable rfl
  | startScheduler idle =>
    obtain ⟨hused, rfl⟩ := hstep
    exact hinv.kept (IdentitiesKept.of_kept (processesKept_startScheduler hused)) htable rfl
  | heap event =>
    obtain ⟨hkernel, -⟩ := hstep
    refine hinv.kept ?_ htable rfl
    rw [hkernel]
    exact IdentitiesKept.refl hcurrent

/-- The run lemma. -/
theorem OrderInvariant.of_run (hrun : (tableSystem entryPoints).Run events s) :
    OrderInvariant events s := by
  refine hrun.history_invariant (fun s hstart ↦ ?_) fun _ _ _ _ hinv hstep ↦ hinv.step hstep
  refine ⟨TableInvariant.start hstart, fun p ↦ ?_, rfl⟩
  rw [hstart.1]
  exact iff_of_false (fun hused ↦ hused rfl) (Nat.not_lt_zero _)

end Invariant

/-! ### The heap of the stacks -/

/-- Nobody but `proc_create` calls `kmalloc` and `kfree`. -/
def TableEvent.LeavesHeap : TableEvent → Prop
  | .heap (.kmalloc _ _) | .heap (.kfree _) => False
  | _ => True

/-- The heap got here by requests for stacks, no more of them than processes were created, and
nothing was given back. -/
def StackHeap (events : List TableEvent) (heap : HeapState) : Prop :=
  ∃ calls : List HeapEvent, (uniformSystem 16384).Run calls heap ∧
    calls.countP HeapEvent.takes ≤ (creations events).length ∧ calls.countP HeapEvent.gives = 0

section StackHeap

variable {events : List TableEvent} {event : TableEvent} {s next : TableState}
  {entryPoints : EntryPoints}

/-- The word below the top of a stack is the owner's. -/
theorem livePayload_storeEntry {heap : HeapState} {blocks : List Word} {kstack : Word}
    (hinv : HeapInvariant heap blocks) (hlive : heap.live kstack = some kstackSize) (entry : Word)
    {position : ℕ} (hchanged : store heap.heap.memory (kstack + kstackSize - 8#64).toNat entry
      position ≠ heap.heap.memory position) : LivePayload heap kstack position := by
  obtain ⟨blk, hmem, hptr, -, hlarge⟩ := hinv.live kstack kstackSize hlive
  obtain ⟨hnat, -, hback⟩ := hinv.shape.payload hmem
  have hbounds := hinv.shape.block_bounds hmem
  have hsize : 16384 ≤ (blkSize heap.heap.memory blk).toNat := hlarge
  rw [blockExtent] at hbounds
  have hbelow : (kstack + kstackSize - 8#64).toNat = kstack.toNat + 16376 := by
    have hround : kstack + kstackSize - 8#64 = kstack + 16376#64 := by bv_omega
    rw [hround, BitVec.toNat_add, hptr, hnat]
    change (blk.toNat + 24 + 16376) % 2 ^ 64 = _
    omega
  have hinside : (kstack + kstackSize - 8#64).toNat ≤ position ∧
      position < (kstack + kstackSize - 8#64).toNat + 8 := by
    by_contra houtside
    exact hchanged (store_apply_of_disjoint entry (by omega))
  rw [LivePayload, hlive, hptr, hback, ← hptr]
  exact ⟨rfl, by omega, by omega⟩

theorem toNat_reserved_stack : (alignUp kstackSize 16#64).toNat = 16384 := rfl

/-- A request for a stack. -/
abbrev stackRequest (kstack : Word) : HeapEvent :=
  .kmalloc kstackSize kstack

/-- What `proc_create` does to the heap: nothing, a request that fails, or a request and a store to
the block it got. -/
theorem StackHeap.createOnHeap (hstack : StackHeap events s.heap)
    {result : Option ProcIndex} {name : List Byte} {entry : Word}
    (hcreate : Proc.createOnHeap entryPoints name entry s = some (result, next)) :
    StackHeap (events ++ [.create name entry (withPid next.kernel result)]) next.heap := by
  obtain ⟨calls, hrun, htakes, hgives⟩ := hstack
  have hmore : (creations (events ++ [.create name entry (withPid next.kernel result)])).length =
      (creations events).length + result.toList.length := by
    rw [creations_append, List.length_append]
    cases result <;> rfl
  rw [Proc.createOnHeap] at hcreate
  cases halloc : allocProc s.kernel with
  | none =>
    simp only [halloc, Option.some.injEq, Prod.mk.injEq] at hcreate
    obtain ⟨rfl, rfl⟩ := hcreate
    exact ⟨calls, hrun, by rw [hmore]; exact htakes, hgives⟩
  | some p =>
    cases hkmalloc : kmalloc s.heap.heap kstackSize with
    | none => simp [halloc, hkmalloc] at hcreate
    | some allocated =>
      obtain ⟨kstack, heap⟩ := allocated
      simp only [halloc, hkmalloc, Option.some.injEq, Prod.mk.injEq] at hcreate
      obtain ⟨hresult, rfl⟩ := hcreate
      have hcalled := hrun.step (show (uniformSystem 16384).step s.heap
        (stackRequest kstack) ⟨heap, addLive s.heap.live kstack kstackSize⟩ from
          ⟨fun _ ↦ toNat_reserved_stack, by decide, hkmalloc, rfl⟩)
      have hgiven := countP_append_event calls (show (stackRequest kstack).gives = false from rfl)
      rw [hgives] at hgiven
      by_cases hnull : kstack = 0#64
      · have htaken := countP_append_event calls
          (show (stackRequest kstack).takes = false from decide_eq_false (not_not.mpr hnull))
        simp only [if_pos hnull]
        refine ⟨_, hcalled, ?_, hgiven⟩
        rw [htaken, hmore]
        exact Nat.le_add_right_of_le htakes
      · have htaken := countP_append_event calls
          (show (stackRequest kstack).takes = true from decide_eq_true hnull)
        obtain ⟨blocks, hinv⟩ := UniformInvariant.of_run hcalled
        have hlive : addLive s.heap.live kstack kstackSize kstack = some kstackSize := by
          rw [addLive, if_neg hnull, Function.update_self]
        have hwrites : ∀ position,
            store heap.memory (kstack + kstackSize - 8#64).toNat entry position ≠
                heap.memory position →
              LivePayload ⟨heap, addLive s.heap.live kstack kstackSize⟩ kstack position :=
          fun position ↦ livePayload_storeEntry hinv.heap hlive entry
        have hwrite : heapSystem.step ⟨heap, addLive s.heap.live kstack kstackSize⟩ .write
            ⟨{ heap with memory := store heap.memory (kstack + kstackSize - 8#64).toNat entry },
              addLive s.heap.live kstack kstackSize⟩ := by
          refine ⟨rfl, rfl, rfl, fun position hchanged ↦ Or.inl ⟨kstack, ?_⟩⟩
          dsimp only at hchanged
          exact hwrites position hchanged
        have hstored := hcalled.step (show (uniformSystem 16384).step _ .write _ from
          ⟨trivial, hwrite⟩)
        have hsome : result = some p := by
          rw [← hresult]
          simp only [procCreate, halloc, if_neg hnull]
        simp only [if_neg hnull]
        refine ⟨_, hstored, ?_, ?_⟩
        · rw [countP_append_event _ (show HeapEvent.write.takes = false from rfl), htaken, hmore,
            hsome]
          exact Nat.succ_le_succ htakes
        · rw [countP_append_event _ (show HeapEvent.write.gives = false from rfl), hgiven]
          rfl

/-- As long as the heap has no other users, it holds the stacks of the processes. -/
theorem stackHeap_of_run (hrun : (tableSystem entryPoints).Run events s)
    (hleaves : ∀ event ∈ events, event.LeavesHeap) : StackHeap events s.heap := by
  refine hrun.history_invariant (motive := fun events s ↦
    (∀ event ∈ events, TableEvent.LeavesHeap event) → StackHeap events s.heap) ?_ ?_ hleaves
  · exact fun s hstart _ ↦ ⟨[], TransitionSystem.Run.start hstart.2, Nat.zero_le _, rfl⟩
  · intro events s event next hstack hstep hleaves
    have hbefore := hstack fun other hother ↦ hleaves other (List.mem_append_left _ hother)
    have hmore : (creations events).length ≤ (creations (events ++ [event])).length := by
      rw [creations_append, List.length_append]
      exact Nat.le_add_right _ _
    have hsame : next.heap = s.heap → StackHeap (events ++ [event]) next.heap := by
      intro heq
      obtain ⟨calls, hcalls, htakes, hgives⟩ := hbefore
      exact ⟨calls, heq ▸ hcalls, htakes.trans hmore, hgives⟩
    cases event with
    | step event =>
      obtain ⟨-, rfl⟩ := hstep
      exact hsame rfl
    | create name entry created =>
      obtain ⟨result, hcreate, rfl⟩ := hstep
      exact hbefore.createOnHeap hcreate
    | createElf pages entry created =>
      obtain ⟨rfl, -⟩ := hstep
      exact hsame rfl
    | startScheduler idle =>
      obtain ⟨-, rfl⟩ := hstep
      exact hsame rfl
    | heap event =>
      obtain ⟨-, hheap⟩ := hstep
      have hwrite := hleaves _ (List.mem_append_right _ List.mem_cons_self)
      cases event with
      | kmalloc | kfree => exact hwrite.elim
      | write =>
        obtain ⟨calls, hcalls, htakes, hgives⟩ := hbefore
        refine ⟨_, hcalls.step (show (uniformSystem 16384).step s.heap .write next.heap from
          ⟨trivial, hheap⟩), ?_, ?_⟩
        · rw [countP_append_event _ (show HeapEvent.write.takes = false from rfl)]
          exact htakes.trans hmore
        · rw [countP_append_event _ (show HeapEvent.write.gives = false from rfl), hgives]
          rfl

/-- There is a stack for every process that has an entry. -/
theorem StackHeap.kmalloc (hstack : StackHeap events s.heap)
    (hless : (creations events).length ≤ procMax) :
    ∃ kstack heap, Mm.kmalloc s.heap.heap kstackSize = some (kstack, heap) ∧ kstack ≠ 0#64 := by
  obtain ⟨calls, hcalls, htakes, hgives⟩ := hstack
  obtain ⟨blocks, hinv⟩ := UniformInvariant.of_run hcalls
  obtain ⟨kstack, heap, hkmalloc, hnull⟩ := hinv.null_iff (by decide : kstackSize.toNat ≤ 0x400000)
    (by decide) toNat_reserved_stack
  refine ⟨kstack, heap, hkmalloc, fun heq ↦ ?_⟩
  have hfull := hnull.mp heq
  rw [blocksInUse, outstanding, hgives] at hfull
  have hmax : (creations events).length ≤ 64 := hless
  omega

end StackHeap

/-! ### What callers get -/

/-- In every run from `proc_init` the processes got the entries and the pids in order, and
`proc_create_elf` returns NULL exactly when 64 were created. As long as nobody else uses the heap,
so does `proc_create`. -/
theorem creations_in_order {entryPoints : EntryPoints} {events : List TableEvent} {s : TableState}
    (hrun : (tableSystem entryPoints).Run events s) :
    creations events = (List.range (creations events).length).map nthCreation ∧
      (∀ pages entry, (procCreateElf entryPoints pages entry s.kernel).1 = none ↔
        (creations events).length = procMax) ∧
      ((∀ event ∈ events, event.LeavesHeap) → ∀ name entry, ∃ result next,
        createOnHeap entryPoints name entry s = some (result, next) ∧
          (result = none ↔ (creations events).length = procMax)) := by
  have hinv := OrderInvariant.of_run hrun
  have hle : (creations events).length ≤ procMax := by
    rw [hinv.table.count]
    exact (Finset.card_le_univ _).trans_eq (Fintype.card_fin procMax)
  have hnone : allocProc s.kernel = none ↔ (creations events).length = procMax := by
    rw [hinv.first.allocProc_eq_none_iff]
    exact ⟨fun hge ↦ Nat.le_antisymm hle hge, fun heq ↦ heq.ge⟩
  refine ⟨hinv.order, fun pages entry ↦ ?_, fun hleaves name entry ↦ ?_⟩
  · rw [procCreateElf_fst, hnone]
  · cases halloc : allocProc s.kernel with
    | none => exact ⟨none, s, by rw [createOnHeap, halloc], iff_of_true rfl (hnone.mp halloc)⟩
    | some p =>
      obtain ⟨kstack, heap, hkmalloc, hnull⟩ := (stackHeap_of_run hrun hleaves).kmalloc hle
      have hcreate : ∃ next, createOnHeap entryPoints name entry s = some (some p, next) := by
        simp only [createOnHeap, halloc, hkmalloc, procCreate, if_neg hnull]
        exact ⟨_, rfl⟩
      obtain ⟨next, hcreate⟩ := hcreate
      refine ⟨some p, next, hcreate, iff_of_false (by simp) fun hfull ↦ ?_⟩
      rw [hnone.mpr hfull] at halloc
      cases halloc

/-- A user process between two kernel processes: the first three entries and pids, and the next
creation of either kind has an entry too. -/
theorem creations_in_order_three : ∃ (events : List TableEvent) (s : TableState),
    (tableSystem ⟨1#64, 2#64⟩).Run events s ∧ creations events = [(1, 0), (2, 1), (3, 2)] ∧
      (∀ pages entry, (procCreateElf ⟨1#64, 2#64⟩ pages entry s.kernel).1 ≠ none) ∧
        ∀ name entry, ∃ p next, createOnHeap ⟨1#64, 2#64⟩ name entry s = some (some p, next) := by
  have hcreate : ∀ events s, (tableSystem ⟨1#64, 2#64⟩).Run events s →
      (∀ event ∈ events, event.LeavesHeap) → (creations events).length < procMax →
        ∀ name entry, ∃ p next, createOnHeap ⟨1#64, 2#64⟩ name entry s = some (some p, next) := by
    intro events s hrun hleaves hless name entry
    obtain ⟨-, -, hheap⟩ := creations_in_order hrun
    obtain ⟨result, next, hresult, hnull⟩ := hheap hleaves name entry
    obtain ⟨p, rfl⟩ := Option.ne_none_iff_exists'.mp (mt hnull.mp hless.ne)
    exact ⟨p, next, hresult⟩
  have hkernel : ∀ events s, (tableSystem ⟨1#64, 2#64⟩).Run events s →
      (∀ event ∈ events, event.LeavesHeap) → (creations events).length < procMax →
        ∃ created next, (tableSystem ⟨1#64, 2#64⟩).Run
          (events ++ [.create [] 0x101000#64 (some created)]) next := by
    intro events s hrun hleaves hless
    obtain ⟨p, next, hresult⟩ := hcreate events s hrun hleaves hless [] 0x101000#64
    have hstep : (tableSystem ⟨1#64, 2#64⟩).step s
        (.create [] 0x101000#64 (withPid next.kernel (some p))) next := ⟨some p, hresult, rfl⟩
    exact ⟨_, next, hrun.step hstep⟩
  have huser : ∀ events s, (tableSystem ⟨1#64, 2#64⟩).Run events s →
      (creations events).length < procMax → ∃ created next, (tableSystem ⟨1#64, 2#64⟩).Run
        (events ++ [.createElf ⟨0x801000#64, 0x802000#64⟩ 0x400000#64 (some created)]) next := by
    intro events s hrun hless
    obtain ⟨-, helf, -⟩ := creations_in_order hrun
    obtain ⟨p, hp⟩ := Option.ne_none_iff_exists'.mp
      (mt (helf ⟨0x801000#64, 0x802000#64⟩ 0x400000#64).mp hless.ne)
    have hstep : (tableSystem ⟨1#64, 2#64⟩).step s
        (.createElf ⟨0x801000#64, 0x802000#64⟩ 0x400000#64 (withPid (procCreateElf ⟨1#64, 2#64⟩
          ⟨0x801000#64, 0x802000#64⟩ 0x400000#64 s.kernel).2 (some p)))
        { s with kernel := (procCreateElf ⟨1#64, 2#64⟩ ⟨0x801000#64, 0x802000#64⟩ 0x400000#64
          s.kernel).2 } := ⟨rfl, by rw [hp]⟩
    exact ⟨_, _, hrun.step hstep⟩
  have hstart : (tableSystem ⟨1#64, 2#64⟩).start ⟨procInit Kernel.bss, unusedHeap⟩ :=
    ⟨rfl, rfl, rfl, rfl⟩
  obtain ⟨a, s, hfirst⟩ := hkernel [] _ (TransitionSystem.Run.start hstart) (by simp)
    (show 0 < procMax by decide)
  obtain ⟨b, s, hsecond⟩ := huser _ s hfirst (show 1 < procMax by decide)
  obtain ⟨c, s, hthird⟩ := hkernel _ s hsecond (by simp [TableEvent.LeavesHeap])
    (show 2 < procMax by decide)
  obtain ⟨horder, helf, -⟩ := creations_in_order hthird
  refine ⟨_, s, hthird, horder.trans (show (List.range 3).map nthCreation = _ by decide),
    fun pages entry ↦ mt (helf pages entry).mp (show ¬ 3 = procMax by decide), ?_⟩
  exact hcreate _ s hthird (by simp [TableEvent.LeavesHeap]) (show 3 < procMax by decide)

end Colix.Proc
