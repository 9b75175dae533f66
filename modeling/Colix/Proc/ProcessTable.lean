import Colix.Mm.HeapRun
import Colix.Proc.Contexts
import Colix.Proc.Pids

/-!
# The identity of processes along runs

`proc_create` with the heap it takes its stack from, `proc_create_elf`, and everything else that
reaches the process table, from `proc_init` on. The two creation paths share `next_pid`; one takes
its entry at once, the other only when nothing can fail any more. `TableInvariant` relates the
table to the creations of the history, and `processTable_run_correct` says what callers of
`proc_find` see, and that a creation that fails changes nothing.
-/

set_option autoImplicit false
set_option relaxedAutoImplicit false

namespace Colix.Proc

open Foundation Ipc Mm

variable {k next : Kernel} {entryPoints : EntryPoints}

/-! ### Steps that create nothing -/

/-- Every entry keeps its pid and whether it is in use, and the counter stays. -/
structure IdentitiesKept (k next : Kernel) : Prop where
  pid_eq : ∀ i, (next.procTable i).pid = (k.procTable i).pid
  unused_iff : ∀ i, (next.procTable i).state = .unused ↔ (k.procTable i).state = .unused
  nextPid_eq : next.nextPid = k.nextPid
  current : CurrentInUse next

theorem IdentitiesKept.of_kept (hkept : ProcessesKept k next) : IdentitiesKept k next :=
  ⟨hkept.pid_eq, hkept.unused_iff, hkept.nextPid_eq, hkept.current⟩

theorem IdentitiesKept.refl (hcurrent : CurrentInUse k) : IdentitiesKept k k :=
  ⟨fun _ ↦ rfl, fun _ ↦ Iff.rfl, rfl, hcurrent⟩

theorem IdentitiesKept.trans {last : Kernel} (hfirst : IdentitiesKept k next)
    (hsecond : IdentitiesKept next last) : IdentitiesKept k last where
  pid_eq i := (hsecond.pid_eq i).trans (hfirst.pid_eq i)
  unused_iff i := (hsecond.unused_iff i).trans (hfirst.unused_iff i)
  nextPid_eq := hsecond.nextPid_eq.trans hfirst.nextPid_eq
  current := hsecond.current

/-- Steps that keep every pid and state, the counter and the current process. -/
theorem IdentitiesKept.of_eq (hcurrent : CurrentInUse k)
    (hpid : ∀ i, (next.procTable i).pid = (k.procTable i).pid)
    (hstate : ∀ i, (next.procTable i).state = (k.procTable i).state)
    (hnext : next.nextPid = k.nextPid) (hcurrentProc : next.currentProc = k.currentProc) :
    IdentitiesKept k next := by
  refine ⟨hpid, fun i ↦ by rw [hstate], hnext, fun i hi ↦ ?_⟩
  rw [hcurrentProc] at hi
  rw [hstate]
  exact hcurrent i hi

theorem IdentitiesKept.pids (hkept : IdentitiesKept k next) (hpids : PidInvariant k) :
    PidInvariant next :=
  hpids.congr hkept.pid_eq hkept.unused_iff hkept.nextPid_eq hkept.current

theorem identitiesKept_ipcSend (hcurrent : CurrentInUse k) (dst : Pid) (type : Word32)
    (data : Option (ℕ → Byte)) (len : Word32) :
    IdentitiesKept k (ipcSend k dst type data len).2 := by
  rcases ipcSend_cases k dst type data len with ⟨-, hreturn⟩ |
    ⟨target, -, ⟨-, hreturn⟩ | ⟨-, -, hreturn⟩ | ⟨-, m, -, hreturn⟩⟩
  · rw [hreturn]
    exact IdentitiesKept.refl hcurrent
  · rw [hreturn]
    exact IdentitiesKept.refl hcurrent
  · rw [hreturn]
    exact IdentitiesKept.refl hcurrent
  · rw [hreturn]
    obtain ⟨-, hcurrentProc, hnext⟩ := queuedState_frame k target m type data len
    have hqueued : IdentitiesKept k (queuedState k target m type data len) :=
      IdentitiesKept.of_eq hcurrent (fun i ↦ pid_queuedState ..) (fun i ↦ state_queuedState ..)
        hnext hcurrentProc
    exact hqueued.trans (IdentitiesKept.of_kept (processesKept_procWakeup hqueued.current target))

theorem identitiesKept_ipcRecv (hcurrent : CurrentInUse k) (out : Option IpcMessage) :
    IdentitiesKept k (ipcRecv k out).kernel := by
  cases hpass : ipcRecv k out with
  | returned result message after =>
    rcases ipcRecv_returned_cases hpass with ⟨-, rfl⟩ | ⟨p, m, buffer, -, -, -, -, -, rfl⟩
    · exact IdentitiesKept.refl hcurrent
    · obtain ⟨-, -, hcurrentProc, hnext⟩ := dequeue_frame k p m buffer
      exact IdentitiesKept.of_eq hcurrent (fun i ↦ pid_dequeue ..)
        (fun i ↦ state_dequeue k p i m buffer) hnext hcurrentProc
  | slept after switch =>
    have hsleep := IdentitiesKept.of_kept (processesKept_procSleep hcurrent 10#64)
    rwa [ipcRecv_slept hpass] at hsleep

/-- A step that allocates no stack creates no process. -/
theorem identitiesKept_perform (hcurrent : CurrentInUse k) {event : SchedulerEvent}
    (hstack : createdStack event = none) :
    IdentitiesKept k (event.perform entryPoints k).1 := by
  cases event with
  | send dst type data len => exact identitiesKept_ipcSend hcurrent dst type data len
  | recv out =>
    have hkept := identitiesKept_ipcRecv hcurrent out
    rw [SchedulerEvent.perform]
    cases hpass : ipcRecv k out with
    | returned result message after => rwa [hpass] at hkept
    | slept after switch => rwa [hpass] at hkept
  | call call =>
    cases call with
    | timer => exact IdentitiesKept.of_kept (processesKept_timerInterrupt hcurrent)
    | yield => exact IdentitiesKept.of_kept (processesKept_schedule hcurrent)
    | sleep ms => exact IdentitiesKept.of_kept (processesKept_procSleep hcurrent ms)
    | exit code => exact IdentitiesKept.of_kept (processesKept_procExit hcurrent code)
    | create kstack name entry => cases hstack
    | createElf pages entry => cases hstack

/-! ### Runs -/

/-- The process table and the heap its stacks come from. -/
structure TableState where
  kernel : Kernel
  heap : HeapState

/-- `proc_create(name, entry, user)` with its `kmalloc` and the word it stores below the top of the
stack; `none` when `kmalloc` does not return. -/
def createOnHeap (entryPoints : EntryPoints) (name : List Byte) (entry : Word) (s : TableState) :
    Option (Option ProcIndex × TableState) :=
  match allocProc s.kernel with
  | none => some (none, s)
  | some _ =>
    match kmalloc s.heap.heap kstackSize with
    | none => none
    | some (kstack, heap) =>
      let created := procCreate entryPoints kstack name entry s.kernel
      let memory :=
        if kstack = 0#64 then heap.memory
        else store heap.memory (kstack + kstackSize - 8#64).toNat entry
      some (created.1,
        { kernel := created.2
          heap :=
            { heap := { heap with memory := memory }
              live := addLive s.heap.live kstack kstackSize } })

/-- A step of the table, with what a creation returned: the entry and the pid in it. -/
inductive TableEvent
  | step (event : SchedulerEvent)
  | create (name : List Byte) (entry : Word) (created : Option (Pid × ProcIndex))
  | createElf (pages : ElfPages) (entry : Word) (created : Option (Pid × ProcIndex))
  | startScheduler (idle : ProcIndex)
  | heap (event : HeapEvent)

/-- The creation an event is. -/
def TableEvent.created : TableEvent → Option (Pid × ProcIndex)
  | .create _ _ created | .createElf _ _ created => created
  | _ => none

/-- The processes created so far. -/
def creations (events : List TableEvent) : List (Pid × ProcIndex) :=
  events.filterMap TableEvent.created

/-- The returned entry with its pid. -/
def withPid (k : Kernel) (result : Option ProcIndex) : Option (Pid × ProcIndex) :=
  result.map fun p ↦ ((k.procTable p).pid, p)

/-- Runs from `proc_init`, with other users of the heap. -/
def tableSystem (entryPoints : EntryPoints) : TransitionSystem TableState TableEvent where
  start s := s.kernel = procInit Kernel.bss ∧ heapSystem.start s.heap
  step s event next :=
    match event with
    | .step event =>
      createdStack event = none ∧ next = { s with kernel := (event.perform entryPoints s.kernel).1 }
    | .create name entry created =>
      ∃ result, createOnHeap entryPoints name entry s = some (result, next) ∧
        created = withPid next.kernel result
    | .createElf pages entry created =>
      next = { s with kernel := (procCreateElf entryPoints pages entry s.kernel).2 } ∧
        created = withPid next.kernel (procCreateElf entryPoints pages entry s.kernel).1
    | .startScheduler idle =>
      (s.kernel.procTable idle).state ≠ .unused ∧
        next = { s with kernel := startScheduler s.kernel idle }
    | .heap event => next.kernel = s.kernel ∧ heapSystem.step s.heap event next.heap

/-! ### What a creation does -/

section Creation

variable {s : TableState} {blocks : List Word}

/-- The word below the top of a stack from the heap lies in the stack's block, so storing it keeps
the heap in order. -/
theorem heapInvariant_storeEntry {heap : HeapState} {kstack : Word} (entry : Word)
    (hinv : HeapInvariant heap blocks) (hlive : heap.live kstack = some kstackSize) :
    HeapInvariant ⟨{ heap.heap with
      memory := store heap.heap.memory (kstack + kstackSize - 8#64).toNat entry }, heap.live⟩
        blocks := by
  obtain ⟨blk, hmem, hptr, -, hlarge⟩ := hinv.live kstack kstackSize hlive
  obtain ⟨hnat, -, hback⟩ := hinv.shape.payload hmem
  have hbounds := hinv.shape.block_bounds hmem
  have hsize : 16384 ≤ (blkSize heap.heap.memory blk).toNat := hlarge
  rw [blockExtent] at hbounds
  have hbelow : (kstack + kstackSize - 8#64).toNat = kstack.toNat + 16376 := by
    have hround : kstack + kstackSize - 8#64 = kstack + 16376#64 := by bv_omega
    rw [hround, BitVec.toNat_add, hptr, hnat]
    change (blk.toNat + 24 + 16376) % 2 ^ 64 = _
    omega
  refine hinv.write fun position hchanged ↦ Or.inl ⟨kstack, ?_⟩
  have hinside : (kstack + kstackSize - 8#64).toNat ≤ position ∧
      position < (kstack + kstackSize - 8#64).toNat + 8 := by
    by_contra houtside
    exact hchanged (store_apply_of_disjoint entry (by omega))
  rw [LivePayload, hlive, hptr, hback, ← hptr]
  exact ⟨rfl, by omega, by omega⟩

/-- What `proc_create` does: its `kmalloc` returns, and either nothing changes and it returns NULL,
or it adds the process it returns. -/
theorem createOnHeap_cases (hinv : HeapInvariant s.heap blocks) (entryPoints : EntryPoints)
    (name : List Byte) (entry : Word) : ∃ result next,
      createOnHeap entryPoints name entry s = some (result, next) ∧
        (∃ after, HeapInvariant next.heap after) ∧
        ((result = none ∧ next = s) ∨
          ∃ p, result = some p ∧ ProcessAdded s.kernel next.kernel p) := by
  cases halloc : allocProc s.kernel with
  | none =>
    refine ⟨none, s, ?_, ⟨blocks, hinv⟩, Or.inl ⟨rfl, rfl⟩⟩
    rw [createOnHeap, halloc]
  | some p =>
    have hsize : kstackSize.toNat ≤ 0x400000 := by
      change 16384 ≤ 0x400000
      omega
    obtain ⟨kstack, heap, hkmalloc, hdone⟩ := hinv.kmalloc hsize
    obtain ⟨after, hafter⟩ := hdone.invariant
    by_cases hnull : kstack = 0#64
    · -- no memory for the stack
      have hcreate : procCreate entryPoints kstack name entry s.kernel = (none, s.kernel) := by
        simp only [procCreate, halloc, if_pos hnull]
      refine ⟨none, s, ?_, ⟨blocks, hinv⟩, Or.inl ⟨rfl, rfl⟩⟩
      simp only [createOnHeap, halloc, hkmalloc, hcreate, if_pos hnull, hdone.null_unchanged hnull,
        addLive]
    · have hcreate : ∃ created,
          procCreate entryPoints kstack name entry s.kernel = (some p, created) := by
        simp only [procCreate, halloc, if_neg hnull]
        exact ⟨_, rfl⟩
      obtain ⟨created, hcreate⟩ := hcreate
      have hlive : addLive s.heap.live kstack kstackSize kstack = some kstackSize := by
        rw [addLive, if_neg hnull, Function.update_self]
      have hstored := heapInvariant_storeEntry entry hafter hlive
      refine ⟨some p, ⟨created, ⟨{ heap with
        memory := store heap.memory (kstack + kstackSize - 8#64).toNat entry },
          addLive s.heap.live kstack kstackSize⟩⟩, ?_, ⟨after, hstored⟩,
        Or.inr ⟨p, rfl, processAdded_procCreate hcreate⟩⟩
      simp only [createOnHeap, halloc, hkmalloc, hcreate, if_neg hnull]

end Creation

/-! ### The invariant -/

/-- Pids are distinct, the heap is in order, and the entries in use are the processes created. -/
structure TableInvariant (events : List TableEvent) (s : TableState) : Prop where
  pids : PidInvariant s.kernel
  heap : ∃ blocks, HeapInvariant s.heap blocks
  created_iff : ∀ pid p, (pid, p) ∈ creations events ↔
    (s.kernel.procTable p).state ≠ .unused ∧ (s.kernel.procTable p).pid = pid
  count : (creations events).length = (entriesInUse s.kernel).card

section Invariant

variable {events : List TableEvent} {event : TableEvent} {s next : TableState}

theorem creations_append (event : TableEvent) :
    creations (events ++ [event]) = creations events ++ event.created.toList := by
  rw [creations, creations, List.filterMap_append]
  cases hcreated : event.created <;> simp [hcreated]

/-- A step that creates nothing. -/
theorem TableInvariant.kept (hinv : TableInvariant events s)
    (hkept : IdentitiesKept s.kernel next.kernel) (hheap : ∃ blocks, HeapInvariant next.heap blocks)
    (hnone : event.created = none) : TableInvariant (events ++ [event]) next := by
  have hsame : creations (events ++ [event]) = creations events := by
    rw [creations_append, hnone, Option.toList_none, List.append_nil]
  refine ⟨hkept.pids hinv.pids, hheap, fun pid p ↦ ?_, ?_⟩
  · rw [hsame, hinv.created_iff, hkept.pid_eq, ne_eq, ne_eq, hkept.unused_iff]
  · have hentries : entriesInUse next.kernel = entriesInUse s.kernel :=
      Finset.filter_congr fun i _ ↦ (hkept.unused_iff i).not
    rw [hsame, hinv.count, hentries]

/-- A step that creates a process. -/
theorem TableInvariant.added (hinv : TableInvariant events s) {p : ProcIndex}
    (hadded : ProcessAdded s.kernel next.kernel p)
    (hheap : ∃ blocks, HeapInvariant next.heap blocks)
    (hcreated : event.created = some ((next.kernel.procTable p).pid, p)) :
    TableInvariant (events ++ [event]) next := by
  have hmore : creations (events ++ [event]) =
      creations events ++ [((next.kernel.procTable p).pid, p)] := by
    rw [creations_append, hcreated, Option.toList_some]
  refine ⟨hinv.pids.added hadded, hheap, fun pid q ↦ ?_, ?_⟩
  · rw [hmore, List.mem_append, List.mem_singleton, hinv.created_iff, Prod.mk.injEq]
    by_cases heq : q = p
    · rw [heq, hadded.used_after, hadded.unused_before]
      simp [eq_comm]
    · rw [hadded.procTable_of_ne q heq]
      simp [heq]
  · have hnotMem : p ∉ entriesInUse s.kernel := by
      simp [entriesInUse, hadded.unused_before]
    rw [hmore, List.length_append, List.length_singleton, hinv.count, entriesInUse_added hadded,
      Finset.card_insert_of_notMem hnotMem]

theorem TableInvariant.start (hstart : (tableSystem entryPoints).start s) :
    TableInvariant [] s := by
  obtain ⟨hkernel, hheap⟩ := hstart
  have hunused : ∀ p, (s.kernel.procTable p).state = .unused := by
    rw [hkernel]
    exact fun _ ↦ rfl
  refine ⟨hkernel ▸ PidInvariant.init, ⟨[], HeapInvariant.start hheap⟩, fun pid p ↦ ?_, ?_⟩
  · simp [creations, hunused p]
  · simp [creations, entriesInUse, hunused]

/-- The step lemma. -/
theorem TableInvariant.step (hinv : TableInvariant events s)
    (hstep : (tableSystem entryPoints).step s event next) :
    TableInvariant (events ++ [event]) next := by
  cases event with
  | step event =>
    obtain ⟨hstack, rfl⟩ := hstep
    exact hinv.kept (identitiesKept_perform hinv.pids.current hstack) hinv.heap rfl
  | create name entry created =>
    obtain ⟨result, hcreate, rfl⟩ := hstep
    obtain ⟨blocks, hheap⟩ := hinv.heap
    obtain ⟨result', next', hcreate', hafter, hcases⟩ :=
      createOnHeap_cases hheap entryPoints name entry
    rw [hcreate', Option.some.injEq, Prod.mk.injEq] at hcreate
    obtain ⟨rfl, rfl⟩ := hcreate
    rcases hcases with ⟨rfl, rfl⟩ | ⟨p, rfl, hadded⟩
    · exact hinv.kept (IdentitiesKept.refl hinv.pids.current) hafter rfl
    · exact hinv.added hadded hafter rfl
  | createElf pages entry created =>
    obtain ⟨rfl, rfl⟩ := hstep
    rcases hcreate : procCreateElf entryPoints pages entry s.kernel with ⟨_ | p, after⟩
    · rcases procCreateElf_cases entryPoints pages entry s.kernel with hfail | ⟨p, -, hcases⟩
      · rw [hcreate] at hfail
        cases hfail
        exact hinv.kept (IdentitiesKept.refl hinv.pids.current) hinv.heap rfl
      · rw [hcases] at hcreate
        cases hcreate
    · exact hinv.added (processAdded_procCreateElf hcreate) hinv.heap rfl
  | startScheduler idle =>
    obtain ⟨hused, rfl⟩ := hstep
    exact hinv.kept (IdentitiesKept.of_kept (processesKept_startScheduler hused)) hinv.heap rfl
  | heap event =>
    obtain ⟨hkernel, hheap⟩ := hstep
    obtain ⟨blocks, hblocks⟩ := hinv.heap
    refine hinv.kept ?_ (hblocks.step hheap) rfl
    rw [hkernel]
    exact IdentitiesKept.refl hinv.pids.current

/-- The run lemma. -/
theorem TableInvariant.of_run (hrun : (tableSystem entryPoints).Run events s) :
    TableInvariant events s :=
  hrun.history_invariant (fun _ hstart ↦ TableInvariant.start hstart)
    fun _ _ _ _ hinv hstep ↦ hinv.step hstep

end Invariant

/-! ### What callers see -/

/-- The table after a history of creations: who is found by a pid, and what a creation that fails
leaves. -/
structure TableCorrect (entryPoints : EntryPoints) (events : List TableEvent) (s : TableState) :
    Prop where
  pid_positive : ∀ i, (s.kernel.procTable i).state ≠ .unused →
    0 < (s.kernel.procTable i).pid.toInt
  pid_distinct : ∀ i j, (s.kernel.procTable i).state ≠ .unused →
    (s.kernel.procTable j).state ≠ .unused →
    (s.kernel.procTable i).pid = (s.kernel.procTable j).pid → i = j
  nextPid_eq : s.kernel.nextPid.toInt = (creations events).length + 1
  creations_le : (creations events).length ≤ procMax
  find_iff : ∀ pid p, procFind s.kernel pid = some p ↔ (pid, p) ∈ creations events
  find_zero : procFind s.kernel 0 = none
  create_returns : ∀ name entry, (createOnHeap entryPoints name entry s).isSome
  create_null : ∀ name entry next, createOnHeap entryPoints name entry s = some (none, next) →
    next = s
  createElf_null : ∀ pages entry, (procCreateElf entryPoints pages entry s.kernel).1 = none →
    (procCreateElf entryPoints pages entry s.kernel).2 = s.kernel

/-- In every run from `proc_init`: pids in use are positive and distinct, the counter counts the
creations and does not wrap, `proc_find` finds exactly the process created with a pid, and a
creation that returns NULL leaves the table, the counter and the heap as they were. -/
theorem processTable_run_correct {events : List TableEvent} {s : TableState}
    (hrun : (tableSystem entryPoints).Run events s) : TableCorrect entryPoints events s := by
  have hinv := TableInvariant.of_run hrun
  have hfind : ∀ pid p, procFind s.kernel pid = some p ↔ (pid, p) ∈ creations events := by
    intro pid p
    rw [hinv.created_iff]
    refine ⟨procFind_some, ?_⟩
    rintro ⟨hused, rfl⟩
    exact hinv.pids.procFind_pid hused
  refine ⟨fun i hi ↦ ?_, hinv.pids.pid_inj, ?_, ?_, hfind, ?_, fun name entry ↦ ?_,
    fun name entry next hnull ↦ ?_, fun pages entry hnull ↦ ?_⟩
  · have hbounds := hinv.pids.pid_bounds i hi
    omega
  · rw [hinv.pids.nextPid_eq, hinv.count]
  · rw [hinv.count]
    simpa using Finset.card_le_univ (entriesInUse s.kernel)
  · by_contra hsome
    obtain ⟨p, hp⟩ := Option.ne_none_iff_exists'.mp hsome
    obtain ⟨hused, hpid⟩ := procFind_some hp
    have hbounds := hinv.pids.pid_bounds p hused
    rw [hpid] at hbounds
    exact absurd hbounds.1 (by decide)
  · obtain ⟨blocks, hheap⟩ := hinv.heap
    obtain ⟨result, next, hcreate, -⟩ := createOnHeap_cases hheap entryPoints name entry
    rw [hcreate]
    rfl
  · obtain ⟨blocks, hheap⟩ := hinv.heap
    obtain ⟨result, next', hcreate, -, hcases⟩ := createOnHeap_cases hheap entryPoints name entry
    rw [hcreate, Option.some.injEq, Prod.mk.injEq] at hnull
    obtain ⟨rfl, rfl⟩ := hnull
    rcases hcases with ⟨-, rfl⟩ | ⟨p, hsome, -⟩
    · rfl
    · cases hsome
  · rcases procCreateElf_cases entryPoints pages entry s.kernel with hfail | ⟨p, -, hcases⟩
    · rw [hfail]
    · rw [hcases] at hnull
      cases hnull

/-- A heap that nothing was taken from. -/
def unusedHeap : HeapState := ⟨⟨fun _ ↦ 0#8, kheapStart, 0#64⟩, fun _ ↦ none⟩

/-- The table after two user processes are created. -/
def firstCreated : Kernel :=
  (procCreateElf ⟨1#64, 2#64⟩ ⟨0x801000#64, 0x802000#64⟩ 0x400000#64 (procInit Kernel.bss)).2

def secondCreated : Kernel :=
  (procCreateElf ⟨1#64, 2#64⟩ ⟨0x803000#64, 0x804000#64⟩ 0x400000#64 firstCreated).2

/-- Both are found by their pids, and nobody has the next one. -/
theorem processTable_run_correct_second : ∃ events : List TableEvent,
    (tableSystem ⟨1#64, 2#64⟩).Run events ⟨secondCreated, unusedHeap⟩ ∧
      creations events = [(1, 0), (2, 1)] ∧
        (procFind secondCreated 1 = some 0 ∧ procFind secondCreated 2 = some 1 ∧
          procFind secondCreated 3 = none) ∧
          TableCorrect ⟨1#64, 2#64⟩ events ⟨secondCreated, unusedHeap⟩ := by
  have hstart : (tableSystem ⟨1#64, 2#64⟩).start ⟨procInit Kernel.bss, unusedHeap⟩ :=
    ⟨rfl, rfl, rfl, rfl⟩
  have hfirst : (tableSystem ⟨1#64, 2#64⟩).step ⟨procInit Kernel.bss, unusedHeap⟩
      (.createElf ⟨0x801000#64, 0x802000#64⟩ 0x400000#64 (some (1, 0)))
        ⟨firstCreated, unusedHeap⟩ := ⟨rfl, by decide⟩
  have hsecond : (tableSystem ⟨1#64, 2#64⟩).step ⟨firstCreated, unusedHeap⟩
      (.createElf ⟨0x803000#64, 0x804000#64⟩ 0x400000#64 (some (2, 1)))
        ⟨secondCreated, unusedHeap⟩ := ⟨rfl, by decide⟩
  have hrun := ((TransitionSystem.Run.start hstart).step hfirst).step hsecond
  exact ⟨_, hrun, rfl, by decide, processTable_run_correct hrun⟩

end Colix.Proc
