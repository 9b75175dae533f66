import Colix.Ipc.IpcCalls

/-!
# Stranded messages

`proc_exit` leaves the queue of the process as it is, and `proc_find` still finds a zombie, so
`ipc_send` queues messages that nobody will receive. Along every run of calls, a pool slot is
stranded exactly from the first step that exits with messages queued or queues one for a zombie
(`strands_iff`).
-/

set_option autoImplicit false
set_option relaxedAutoImplicit false

namespace Colix.Ipc

open Foundation Proc

/-- Every slot in use is in the queue of a process that can still receive. -/
def NoneStranded (k : Kernel) : Prop :=
  ∀ m, k.msgUsed m = true → ∃ q, m ∈ queueSlots k q ∧ (k.procTable q).state ≠ .unused ∧
    (k.procTable q).state ≠ .zombie

/-- No zombie has a message. -/
def ZombiesEmpty (k : Kernel) : Prop :=
  ∀ q, (k.procTable q).state = .zombie → (k.procTable q).msgQueue = none

/-- The step leaves no message behind: a send that is admitted is not to a zombie, and a process
that exits has no messages. -/
def LeavesNone (k : Kernel) : IpcCall → Prop
  | .send dst _ _ len => ∀ target, procFind k dst = some target → Admits k len →
      (k.procTable target).state ≠ .zombie
  | .call (.exit _) => ∀ current, k.currentProc = some current →
      (k.procTable current).msgQueue = none
  | _ => True

variable {k : Kernel} {calls : List IpcCall} {entryPoints : EntryPoints} {q : ProcIndex}

/-- Slots are stranded exactly in the queues of zombies. -/
theorem noneStranded_iff (horder : QueuesInOrder k) : NoneStranded k ↔ ZombiesEmpty k := by
  obtain ⟨events, hinv⟩ := horder
  constructor
  · intro hfree q hzombie
    by_contra hhead
    obtain ⟨m, hm⟩ := Option.ne_none_iff_exists'.mp hhead
    obtain ⟨rest, hqueue⟩ := exists_queueSlots_cons hinv hm
    have hmem : m ∈ queueSlots k q := hqueue ▸ List.mem_cons_self
    obtain ⟨other, hother, -, hlive⟩ := hfree m ((hinv.queues.used_iff m).mpr ⟨q, hmem⟩)
    obtain ⟨_, -, honly⟩ := (hinv.queues.used_iff_existsUnique m).mp
      ((hinv.queues.used_iff m).mpr ⟨q, hmem⟩)
    rw [(honly other hother).trans (honly q hmem).symm] at hlive
    exact hlive hzombie
  · intro hempty m hused
    obtain ⟨q, hmem⟩ := (hinv.queues.used_iff m).mp hused
    have hhead : queueHead k q ≠ none := by
      intro hnone
      rw [(hinv.queues.chain q).head_eq_none_iff.mp hnone] at hmem
      exact List.not_mem_nil hmem
    exact ⟨q, hmem, fun hunused ↦ hhead (hinv.unused_empty q hunused),
      fun hzombie ↦ hhead (hempty q hzombie)⟩

/-! ### Zombies -/

/-- `schedule` neither makes nor unmakes a zombie. -/
theorem zombie_schedule_iff (k : Kernel) (q : ProcIndex) :
    ((schedule k).1.procTable q).state = .zombie ↔ (k.procTable q).state = .zombie := by
  cases hcurrent : k.currentProc with
  | none => rw [schedule, hcurrent]
  | some old =>
    rcases schedule_cases hcurrent with ⟨p, hfind, hdispatch⟩ | ⟨-, -, hsame⟩
    · have hready := state_of_nextReady hfind
      rw [requeue_state] at hready
      rw [hdispatch, dispatch_state, requeue_state]
      split_ifs at hready ⊢ <;> simp_all
    · rw [hsame]

/-- Setting the state of an entry to one that is not ZOMBIE makes no zombie. -/
theorem zombie_of_modify {f : Process → Process} {p : ProcIndex}
    (hlive : (f (k.procTable p)).state ≠ .zombie)
    (hzombie : ((k.modify p f).procTable q).state = .zombie) :
    q ≠ p ∧ (k.procTable q).state = .zombie := by
  by_cases heq : q = p
  · rw [heq, Kernel.modify_procTable_self] at hzombie
    exact absurd hzombie hlive
  · rw [Kernel.modify_procTable_of_ne k f heq] at hzombie
    exact ⟨heq, hzombie⟩

theorem zombie_of_procWakeup {p : ProcIndex}
    (hzombie : ((procWakeup k p).procTable q).state = .zombie) :
    (k.procTable q).state = .zombie := by
  rw [procWakeup] at hzombie
  split_ifs at hzombie
  · exact (zombie_of_modify (fun h ↦ ProcState.noConfusion h) hzombie).2
  · exact hzombie

theorem zombie_of_procSleep {ms : Word}
    (hzombie : ((procSleep k ms).1.procTable q).state = .zombie) :
    (k.procTable q).state = .zombie := by
  rw [procSleep] at hzombie
  cases hcurrent : k.currentProc with
  | none => rwa [hcurrent] at hzombie
  | some current =>
    rw [hcurrent] at hzombie
    have hbefore := (zombie_schedule_iff _ q).mp hzombie
    exact (zombie_of_modify (fun h ↦ ProcState.noConfusion h) hbefore).2

theorem zombie_of_timerInterrupt
    (hzombie : ((timerInterrupt k).1.procTable q).state = .zombie) :
    (k.procTable q).state = .zombie := by
  have hcounted : ((countdownAll { k with ticks := k.ticks + 1#64 }).procTable q).state =
      .zombie := by
    rw [timerInterrupt, schedTick] at hzombie
    split_ifs at hzombie
    · exact (zombie_schedule_iff _ q).mp hzombie
    · exact hzombie
  have hentry : (countdown (k.procTable q)).state = .zombie := hcounted
  simp only [countdown] at hentry
  split_ifs at hentry <;> simp_all

/-- An exit makes the current process a zombie, and no other. -/
theorem zombie_procExit_iff {current : ProcIndex} (hcurrent : k.currentProc = some current)
    (code : Int32) (q : ProcIndex) : ((procExit k code).1.procTable q).state = .zombie ↔
      q = current ∨ (k.procTable q).state = .zombie := by
  rw [procExit, hcurrent]
  refine (zombie_schedule_iff _ q).trans ?_
  by_cases heq : q = current
  · simp [heq]
  · simp [heq]

/-- A zombie of a state with a process added was one before, with the same queue. -/
theorem zombie_of_added {next : Kernel} {p : ProcIndex} (hadded : ProcessAdded k next p)
    (hzombie : (next.procTable q).state = .zombie) :
    (next.procTable q).msgQueue = (k.procTable q).msgQueue ∧ (k.procTable q).state = .zombie := by
  have hne : q ≠ p := by
    rintro rfl
    rw [hadded.used_after] at hzombie
    cases hzombie
  rw [hadded.procTable_of_ne q hne] at hzombie ⊢
  exact ⟨rfl, hzombie⟩

/-- A kernel call makes a zombie only of a process that exits, and no zombie loses its queue. -/
theorem zombie_of_perform {call : KernelCall} (hcurrent : CurrentInUse k)
    (hzombie : ((call.perform entryPoints k).1.procTable q).state = .zombie) :
    ((call.perform entryPoints k).1.procTable q).msgQueue = (k.procTable q).msgQueue ∧
      ((k.procTable q).state = .zombie ∨
        ∃ code, call = .exit code ∧ k.currentProc = some q) := by
  cases call with
  | timer =>
    exact ⟨msgQueue_of_kept (processesKept_timerInterrupt hcurrent) q,
      Or.inl (zombie_of_timerInterrupt hzombie)⟩
  | yield =>
    exact ⟨msgQueue_of_kept (processesKept_schedule hcurrent) q,
      Or.inl ((zombie_schedule_iff k q).mp hzombie)⟩
  | sleep ms =>
    exact ⟨msgQueue_of_kept (processesKept_procSleep hcurrent ms) q,
      Or.inl (zombie_of_procSleep hzombie)⟩
  | exit code =>
    refine ⟨msgQueue_of_kept (processesKept_procExit hcurrent code) q, ?_⟩
    cases hsome : k.currentProc with
    | none =>
      rw [KernelCall.perform, procExit, hsome] at hzombie
      exact Or.inl hzombie
    | some current =>
      rcases (zombie_procExit_iff hsome code q).mp hzombie with rfl | hbefore
      · exact Or.inr ⟨code, rfl, rfl⟩
      · exact Or.inl hbefore
  | create kstack name entry =>
    rw [KernelCall.perform] at hzombie ⊢
    rcases procCreate_cases entryPoints kstack name entry k with hsame | ⟨p, hunused, -, hcreate⟩
    · rw [hsame] at hzombie ⊢
      exact ⟨rfl, Or.inl hzombie⟩
    · rw [hcreate] at hzombie ⊢
      have hbefore := zombie_of_added (ProcessAdded.of_modify p _ hunused rfl rfl) hzombie
      exact ⟨hbefore.1, Or.inl hbefore.2⟩
  | createElf pages entry =>
    rw [KernelCall.perform] at hzombie ⊢
    rcases procCreateElf_cases entryPoints pages entry k with hsame | ⟨p, hunused, hcreate⟩
    · rw [hsame] at hzombie ⊢
      exact ⟨rfl, Or.inl hzombie⟩
    · rw [hcreate] at hzombie ⊢
      have hbefore := zombie_of_added (ProcessAdded.of_modify p _ hunused rfl rfl) hzombie
      exact ⟨hbefore.1, Or.inl hbefore.2⟩

/-! ### One step -/

/-- Queueing a message touches the queue of its target only. -/
theorem msgQueue_procWakeup_queuedState {target : ProcIndex} {m : MsgIndex} {type len : Word32}
    {data : Option (ℕ → Byte)} (hne : q ≠ target) :
    ((procWakeup (queuedState k target m type data len) target).procTable q).msgQueue =
      (k.procTable q).msgQueue := by
  rw [procWakeup_field Process.msgQueue (fun _ _ ↦ rfl)]
  exact (enqueue_msgQueue _ target q m).trans (if_neg fun h ↦ hne h.1)

/-- A step that leaves no message behind keeps the queues of zombies empty. -/
theorem ZombiesEmpty.perform (hempty : ZombiesEmpty k) (hcurrent : CurrentInUse k)
    {call : IpcCall} (hleaves : LeavesNone k call) :
    ZombiesEmpty (call.perform entryPoints k) := by
  intro q hzombie
  cases call with
  | send dst type data len =>
    rw [IpcCall.perform] at hzombie ⊢
    rcases ipcSend_state_cases k dst type data len with ⟨-, hsame⟩ |
      ⟨target, m, htarget, hlen, hunused, hqueued⟩
    · rw [hsame] at hzombie ⊢
      exact hempty q hzombie
    · rw [hqueued] at hzombie ⊢
      have hbefore := zombie_of_procWakeup hzombie
      rw [state_queuedState] at hbefore
      have hne : q ≠ target := by
        rintro rfl
        exact hleaves q htarget ⟨hlen, m, hunused⟩ hbefore
      rw [msgQueue_procWakeup_queuedState hne]
      exact hempty q hbefore
  | recv out =>
    rw [IpcCall.perform] at hzombie ⊢
    cases hrecv : ipcRecv k out with
    | returned result message after =>
      rw [hrecv] at hzombie
      change (after.procTable q).state = .zombie at hzombie
      change (after.procTable q).msgQueue = none
      rcases ipcRecv_returned_cases hrecv with ⟨-, rfl⟩ |
        ⟨current, m, buffer, -, hhead, -, -, -, rfl⟩
      · exact hempty q hzombie
      · rw [state_dequeue] at hzombie
        have hne : q ≠ current := by
          rintro rfl
          rw [hempty q hzombie] at hhead
          cases hhead
        rw [dequeue_msgQueue, if_neg hne]
        exact hempty q hzombie
    | slept after switch =>
      have hsleep : (procSleep k 10#64).1 = after := congrArg Prod.fst (ipcRecv_slept hrecv)
      rw [hrecv] at hzombie
      change (after.procTable q).state = .zombie at hzombie
      change (after.procTable q).msgQueue = none
      rw [← hsleep] at hzombie ⊢
      rw [msgQueue_of_kept (processesKept_procSleep hcurrent 10#64)]
      exact hempty q (zombie_of_procSleep hzombie)
  | call kernelCall =>
    obtain ⟨hqueue, hbefore⟩ := zombie_of_perform hcurrent hzombie
    rw [IpcCall.perform, hqueue]
    rcases hbefore with hbefore | ⟨code, rfl, hself⟩
    · exact hempty q hbefore
    · exact hleaves q hself
  | resume p =>
    rw [IpcCall.perform] at hzombie ⊢
    split_ifs at hzombie ⊢ <;> exact hempty q hzombie

/-- A step that leaves a message behind gives a zombie a message. -/
theorem leavesNone_of_perform {call : IpcCall}
    (hempty : ZombiesEmpty (call.perform entryPoints k)) (hbefore : QueuesInOrder k) :
    LeavesNone k call := by
  obtain ⟨events, hinv⟩ := hbefore
  cases call with
  | send dst type data len =>
    intro target htarget hadmits hzombie
    rcases ipcSend_state_cases k dst type data len with ⟨hrefused, -⟩ |
      ⟨target', m, htarget', -, -, hqueued⟩
    · exact hrefused target htarget hadmits
    · rw [htarget, Option.some.injEq] at htarget'
      subst htarget'
      have hawake : procWakeup (queuedState k target m type data len) target =
          queuedState k target m type data len := by
        rw [procWakeup, if_neg]
        rw [state_queuedState, hzombie]
        exact fun h ↦ ProcState.noConfusion h
      rw [IpcCall.perform, hqueued, hawake] at hempty
      have hnone := hempty target (by rw [state_queuedState, hzombie])
      rw [queuedState, enqueue_msgQueue] at hnone
      have htail := hinv.queues.head_none_iff_tail_none target
      rw [queueHead, queueTail] at htail
      split_ifs at hnone with hfirst
      exact hfirst ⟨rfl, htail.mp hnone⟩
  | recv out => trivial
  | call kernelCall =>
    cases kernelCall with
    | exit code =>
      intro current hcurrent
      have hzombie := (zombie_procExit_iff hcurrent code current).mpr (Or.inl rfl)
      have hnone : ((procExit k code).1.procTable current).msgQueue = none :=
        hempty current hzombie
      exact (msgQueue_of_kept (processesKept_procExit hinv.pids.current code) current).symm.trans
        hnone
    | timer => trivial
    | yield => trivial
    | sleep ms => trivial
    | create kstack name entry => trivial
    | createElf pages entry => trivial
  | resume p => trivial

/-! ### Runs -/

/-- A state with no messages has none in a zombie's queue. -/
theorem ZombiesEmpty.start (hstart : (callSystem entryPoints).start k) : ZombiesEmpty k := by
  intro q hzombie
  have hmain : (ipcSystem entryPoints).start k := hstart
  have hinv := IpcInvariant.start hmain
  have hused : (k.procTable q).state ≠ .unused := by
    rw [hzombie]
    exact fun h ↦ ProcState.noConfusion h
  have hmessages : queuedMessages k q = [] := hinv.fifo q hused
  exact (hinv.queues.chain q).head_eq_none_iff.mpr (List.map_eq_nil_iff.mp hmessages)

/-- In every state reached by steps that leave no message behind no slot is stranded, and the next
step strands one exactly when it leaves one behind. -/
theorem none_stranded_run
    (hrun : ((callSystem entryPoints).restrict LeavesNone).Run calls k) :
    NoneStranded k ∧ ∀ call, NoneStranded (call.perform entryPoints k) ↔ LeavesNone k call := by
  have hboth : QueuesInOrder k ∧ ZombiesEmpty k := by
    refine hrun.invariant (motive := fun k ↦ QueuesInOrder k ∧ ZombiesEmpty k) ?_ ?_
    · intro state hstart
      have hmain : (ipcSystem entryPoints).start state := hstart
      exact ⟨⟨[], IpcInvariant.start hmain⟩, ZombiesEmpty.start hstart⟩
    · rintro state call _ ⟨horder, hempty⟩ ⟨hleaves, rfl⟩
      obtain ⟨events, hinv⟩ := horder
      exact ⟨QueuesInOrder.perform ⟨events, hinv⟩ entryPoints call,
        hempty.perform hinv.pids.current hleaves⟩
  obtain ⟨horder, hempty⟩ := hboth
  refine ⟨(noneStranded_iff horder).mpr hempty, fun call ↦ ?_⟩
  rw [noneStranded_iff (horder.perform entryPoints call)]
  constructor
  · exact fun hafter ↦ leavesNone_of_perform hafter horder
  · obtain ⟨events, hinv⟩ := horder
    exact fun hleaves ↦ hempty.perform hinv.pids.current hleaves

/-- The idle process sends itself a message: a slot is in use and none is stranded. -/
theorem none_stranded_run_idle : ∃ k sent,
    kernelMain ⟨1#64, 2#64⟩ 3#64 0xFFFF900000000018#64 none = some (0, k) ∧
      (ipcSend k 1 7#32 (some fun i ↦ BitVec.ofNat 8 i) 3#32).2 = sent ∧
      sent.msgUsed 0 = true ∧ NoneStranded sent := by
  obtain ⟨k, sent, hmain, hsend, hused, hfind, hstate⟩ : ∃ k sent,
      kernelMain ⟨1#64, 2#64⟩ 3#64 0xFFFF900000000018#64 none = some (0, k) ∧
        (ipcSend k 1 7#32 (some fun i ↦ BitVec.ofNat 8 i) 3#32).2 = sent ∧
        sent.msgUsed 0 = true ∧ procFind k 1 = some 0 ∧ (k.procTable 0).state = .running :=
    ⟨_, _, rfl, rfl, rfl, rfl, rfl⟩
  have hstart : ((callSystem ⟨1#64, 2#64⟩).restrict LeavesNone).Run [] k :=
    TransitionSystem.Run.start ⟨3#64, 0xFFFF900000000018#64, none, 0, hmain⟩
  have hleaves : LeavesNone k (.send 1 7#32 (some fun i ↦ BitVec.ofNat 8 i) 3#32) := by
    intro target htarget _
    rw [hfind, Option.some.injEq] at htarget
    rw [← htarget, hstate]
    exact fun h ↦ ProcState.noConfusion h
  exact ⟨k, sent, hmain, hsend, hused, (none_stranded_run (hstart.step ⟨hleaves, hsend⟩)).1⟩

/-- The idle process creates a second process and sends it a message, and the second process is
scheduled and exits: its message keeps a slot that no process can free. -/
theorem slot_stranded : ¬ ∀ entryPoints calls k,
    (callSystem entryPoints).Run calls k → NoneStranded k := by
  intro hall
  obtain ⟨k, created, sent, yielded, exited, hmain, hcreate, hsend, hyield, hexit, hzombie,
      hqueue⟩ :
      ∃ k created sent yielded exited,
        kernelMain ⟨1#64, 2#64⟩ 3#64 0xFFFF900000000018#64 none = some (0, k) ∧
          (IpcCall.call (.create 0xFFFF900000008018#64 [0x61#8] 5#64)).perform ⟨1#64, 2#64⟩ k =
            created ∧
          (IpcCall.send 2 7#32 (some fun i ↦ BitVec.ofNat 8 i) 3#32).perform ⟨1#64, 2#64⟩ created =
            sent ∧
          (IpcCall.call .yield).perform ⟨1#64, 2#64⟩ sent = yielded ∧
          (IpcCall.call (.exit 0)).perform ⟨1#64, 2#64⟩ yielded = exited ∧
          (exited.procTable 1).state = .zombie ∧ (exited.procTable 1).msgQueue = some 0 :=
    ⟨_, _, _, _, _, rfl, rfl, rfl, rfl, rfl, rfl, rfl⟩
  have hstart : (callSystem ⟨1#64, 2#64⟩).Run [] k :=
    TransitionSystem.Run.start ⟨3#64, 0xFFFF900000000018#64, none, 0, hmain⟩
  have hrun := (((hstart.step hcreate).step hsend).step hyield).step hexit
  have hempty := (noneStranded_iff (QueuesInOrder.of_run hrun)).mp (hall _ _ _ hrun)
  have hnone : (exited.procTable 1).msgQueue = none := hempty 1 hzombie
  rw [hqueue] at hnone
  cases hnone

end Colix.Ipc
