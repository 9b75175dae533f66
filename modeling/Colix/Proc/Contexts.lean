import Colix.Proc.SchedulerRun

/-!
# Saved contexts and kernel calls

No kernel call writes the context of a process but the one that creates it: the context it saves is
written by `switch_context`, after the call has chosen where to go. `SchedulerEvent.perform_cases`
says so for every step of a run.
-/

set_option autoImplicit false
set_option relaxedAutoImplicit false

namespace Colix.Proc

open Foundation Ipc

/-- A step of a run as a state change, with the switch it makes. -/
def SchedulerEvent.perform (entryPoints : EntryPoints) (k : Kernel) :
    SchedulerEvent → Kernel × Option ContextSwitch
  | .call made => made.perform entryPoints k
  | .send dst type data len => ((ipcSend k dst type data len).2, none)
  | .recv out =>
    match ipcRecv k out with
    | .returned _ _ k => (k, none)
    | .slept k switch => (k, switch)

/-- A kernel stack, by its lowest address and its size. -/
structure KernelStack where
  base : Word
  size : Word

/-- The top of a stack, where it starts when it is empty. -/
def KernelStack.top (stack : KernelStack) : Word :=
  stack.base + stack.size

/-- The eight bytes at a stack pointer lie in the stack. -/
def KernelStack.Contains (stack : KernelStack) (rsp : Word) : Prop :=
  stack.base.toNat ≤ rsp.toNat ∧ rsp.toNat + 8 ≤ stack.base.toNat + stack.size.toNat

/-- The eight bytes at the top of a stack lie outside it. -/
theorem KernelStack.not_contains_top (stack : KernelStack) : ¬ stack.Contains stack.top := by
  rw [Contains, top, BitVec.toNat_add]
  have hbase := stack.base.isLt
  have hsize := stack.size.isLt
  omega

/-- The kernel stack that a creation allocates. -/
def createdStack : SchedulerEvent → Option KernelStack
  | .call (.create kstack _ _) => some ⟨kstack, kstackSize⟩
  | .call (.createElf pages _) => some ⟨pages.kernelStack, pageSize⟩
  | _ => none

/-- Every context is kept, and no entry comes into use. -/
structure ContextsKept (k next : Kernel) : Prop where
  context_eq : ∀ i, (next.procTable i).context = (k.procTable i).context
  used : ∀ i, (next.procTable i).state ≠ .unused → (k.procTable i).state ≠ .unused

variable {k next : Kernel} {idle current : ProcIndex} {entryPoints : EntryPoints}

theorem ContextsKept.refl (k : Kernel) : ContextsKept k k :=
  ⟨fun _ ↦ rfl, fun _ h ↦ h⟩

/-- A step that keeps processes and writes no context. -/
theorem ContextsKept.of_kept (hkept : ProcessesKept k next)
    (hcontext : ∀ i, (next.procTable i).context = (k.procTable i).context) :
    ContextsKept k next :=
  ⟨hcontext, fun i h hunused ↦ h ((hkept.unused_iff i).mpr hunused)⟩

/-- The current process of a run is in use. -/
theorem SchedulerInvariant.currentInUse (hinv : SchedulerInvariant idle k current) :
    CurrentInUse k := by
  intro i hi
  rw [hinv.current_eq, Option.some.injEq] at hi
  rw [← hi, (hinv.running_iff current).mpr rfl]
  exact fun h ↦ ProcState.noConfusion h

/-! ### Fields that only creation writes -/

/-- A field of a process that scheduling, exits and messages do not write. -/
structure CreationField {α : Type*} (field : Process → α) : Prop where
  state : ∀ process state, field { process with state := state } = field process
  started : ∀ process started, field { process with started := started } = field process
  sleepTicks : ∀ process ticks, field { process with sleepTicks := ticks } = field process
  exitCode : ∀ process code, field { process with exitCode := code } = field process
  msgQueue : ∀ process queue, field { process with msgQueue := queue } = field process
  msgTail : ∀ process tail, field { process with msgTail := tail } = field process
  msgCount : ∀ process count, field { process with msgCount := count } = field process

/-- The saved context is such a field. -/
theorem creationField_context : CreationField Process.context :=
  ⟨fun _ _ ↦ rfl, fun _ _ ↦ rfl, fun _ _ ↦ rfl, fun _ _ ↦ rfl, fun _ _ ↦ rfl, fun _ _ ↦ rfl,
    fun _ _ ↦ rfl⟩

section CreationField

variable {α : Type*} {field : Process → α} (hfield : CreationField field) (k : Kernel)
  (i : ProcIndex)
include hfield

theorem CreationField.schedule :
    field ((Proc.schedule k).1.procTable i) = field (k.procTable i) :=
  schedule_field field hfield.state hfield.started k i

theorem CreationField.timerInterrupt :
    field ((Proc.timerInterrupt k).1.procTable i) = field (k.procTable i) := by
  have hcounted : field ((countdownAll { k with ticks := k.ticks + 1#64 }).procTable i) =
      field (k.procTable i) := by
    change field (countdown (k.procTable i)) = _
    have hcount := hfield.sleepTicks (k.procTable i) ((k.procTable i).sleepTicks - 1#64)
    simp only [countdown]
    split_ifs
    · exact (hfield.state { k.procTable i with sleepTicks := _ } .ready).trans hcount
    · exact hcount
    · exact hfield.state (k.procTable i) .ready
    · rfl
    · rfl
  rw [Proc.timerInterrupt, schedTick]
  split_ifs
  · rw [hfield.schedule, hcounted]
  · exact hcounted

theorem CreationField.procSleep (ms : Word) :
    field ((Proc.procSleep k ms).1.procTable i) = field (k.procTable i) := by
  rw [Proc.procSleep]
  cases hsome : k.currentProc with
  | none => rfl
  | some current =>
    refine (hfield.schedule _ i).trans (k.modify_field current i _ field fun process ↦ ?_)
    exact (hfield.state { process with sleepTicks := sleepTicksOf ms } .sleeping).trans
      (hfield.sleepTicks process (sleepTicksOf ms))

theorem CreationField.procExit (code : Int32) :
    field ((Proc.procExit k code).1.procTable i) = field (k.procTable i) := by
  rw [Proc.procExit]
  cases hsome : k.currentProc with
  | none => rfl
  | some current =>
    refine (hfield.schedule _ i).trans (k.modify_field current i _ field fun process ↦ ?_)
    exact (hfield.state { process with exitCode := code } .zombie).trans
      (hfield.exitCode process code)

theorem CreationField.ipcSend (dst : Pid) (type : Word32) (data : Option (ℕ → Byte))
    (len : Word32) :
    field ((Ipc.ipcSend k dst type data len).2.procTable i) = field (k.procTable i) := by
  rcases ipcSend_cases k dst type data len with ⟨-, hreturn⟩ |
    ⟨target, -, ⟨-, hreturn⟩ | ⟨-, -, hreturn⟩ | ⟨-, m, -, hreturn⟩⟩
  · rw [hreturn]
  · rw [hreturn]
  · rw [hreturn]
  · rw [hreturn]
    refine (procWakeup_field field hfield.state _ target i).trans ?_
    exact queuedState_field k target i m type data len field hfield.msgQueue hfield.msgTail
      hfield.msgCount

theorem CreationField.dequeue (p : ProcIndex) (m : MsgIndex) (out : IpcMessage) :
    field ((Ipc.dequeue k p m out).2.procTable i) = field (k.procTable i) :=
  dequeue_field k p i m out field hfield.msgQueue hfield.msgTail hfield.msgCount

end CreationField

theorem contextsKept_timerInterrupt (hcurrent : CurrentInUse k) :
    ContextsKept k (timerInterrupt k).1 :=
  ContextsKept.of_kept (processesKept_timerInterrupt hcurrent)
    (creationField_context.timerInterrupt k)

theorem contextsKept_procSleep (hcurrent : CurrentInUse k) (ms : Word) :
    ContextsKept k (procSleep k ms).1 :=
  ContextsKept.of_kept (processesKept_procSleep hcurrent ms) fun i ↦
    creationField_context.procSleep k i ms

theorem contextsKept_procExit (hcurrent : CurrentInUse k) (code : Int32) :
    ContextsKept k (procExit k code).1 :=
  ContextsKept.of_kept (processesKept_procExit hcurrent code) fun i ↦
    creationField_context.procExit k i code

theorem contextsKept_ipcSend (hcurrent : CurrentInUse k) (dst : Pid) (type : Word32)
    (data : Option (ℕ → Byte)) (len : Word32) : ContextsKept k (ipcSend k dst type data len).2 := by
  refine ⟨fun i ↦ creationField_context.ipcSend k i dst type data len, fun i h ↦ ?_⟩
  rcases ipcSend_cases k dst type data len with ⟨-, hreturn⟩ |
    ⟨target, -, ⟨-, hreturn⟩ | ⟨-, -, hreturn⟩ | ⟨-, m, -, hreturn⟩⟩
  · rwa [hreturn] at h
  · rwa [hreturn] at h
  · rwa [hreturn] at h
  · rw [hreturn] at h
    have hstate : ∀ i, ((queuedState k target m type data len).procTable i).state =
        (k.procTable i).state := fun i ↦ state_queuedState ..
    have hqueued : CurrentInUse (queuedState k target m type data len) := by
      intro i hi
      rw [(queuedState_frame k target m type data len).2.1] at hi
      rw [hstate]
      exact hcurrent i hi
    rw [← hstate]
    exact fun hunused ↦ h (((processesKept_procWakeup hqueued target).unused_iff i).mpr hunused)

theorem contextsKept_dequeue (k : Kernel) (p : ProcIndex) (m : MsgIndex) (out : IpcMessage) :
    ContextsKept k (dequeue k p m out).2 := by
  refine ⟨fun i ↦ creationField_context.dequeue k i p m out, fun i h ↦ ?_⟩
  rwa [state_dequeue] at h

/-! ### What a step does to contexts -/

/-- An entry came into use in a step that allocated a stack, with its context on top of it. -/
structure StackCreated (k next : Kernel) (p : ProcIndex) (stack : KernelStack) : Prop where
  unused_before : (k.procTable p).state = .unused
  used_after : (next.procTable p).state ≠ .unused
  rsp_eq : (next.procTable p).context.rsp = stack.top
  others : ∀ i, i ≠ p → next.procTable i = k.procTable i

/-- An UNUSED entry filled in, with the pid counter advanced. -/
theorem StackCreated.of_modify {p : ProcIndex} {stack : KernelStack} (f : Process → Process)
    (pid : Pid) (hunused : (k.procTable p).state = .unused)
    (hready : (f (k.procTable p)).state = .ready)
    (hrsp : (f (k.procTable p)).context.rsp = stack.top) :
    StackCreated k { k.modify p f with nextPid := pid } p stack := by
  refine ⟨hunused, fun h ↦ ?_, ?_, fun i hne ↦ k.modify_procTable_of_ne f hne⟩
  · change ((k.modify p f).procTable p).state = .unused at h
    rw [Kernel.modify_procTable_self, hready] at h
    cases h
  · rw [← hrsp]
    exact congrArg (fun process ↦ process.context.rsp) (k.modify_procTable_self p f)

theorem stackCreated_procCreate {kstack entry : Word} {name : List Byte} {p : ProcIndex}
    (hcreate : procCreate entryPoints kstack name entry k = (some p, next)) :
    StackCreated k next p ⟨kstack, kstackSize⟩ := by
  rcases procCreate_cases entryPoints kstack name entry k with hfail | ⟨i, hunused, -, hcases⟩
  · rw [hfail] at hcreate
    cases hcreate
  · rw [hcases] at hcreate
    cases hcreate
    exact StackCreated.of_modify _ _ hunused rfl rfl

theorem stackCreated_procCreateElf {pages : ElfPages} {entry : Word} {p : ProcIndex}
    (hcreate : procCreateElf entryPoints pages entry k = (some p, next)) :
    StackCreated k next p ⟨pages.kernelStack, pageSize⟩ := by
  rcases procCreateElf_cases entryPoints pages entry k with hfail | ⟨i, hunused, hcases⟩
  · rw [hfail] at hcreate
    cases hcreate
  · rw [hcases] at hcreate
    cases hcreate
    exact StackCreated.of_modify _ _ hunused rfl rfl

/-- All that a step can do to contexts: keep them, or create a process on a new stack. -/
theorem SchedulerEvent.perform_cases (hcurrent : CurrentInUse k) (entryPoints : EntryPoints)
    (event : SchedulerEvent) :
    ContextsKept k (event.perform entryPoints k).1 ∨
      (event.perform entryPoints k).2 = none ∧ ∃ p stack, createdStack event = some stack ∧
        StackCreated k (event.perform entryPoints k).1 p stack := by
  cases event with
  | send dst type data len => exact Or.inl (contextsKept_ipcSend hcurrent dst type data len)
  | recv out =>
    left
    rw [perform]
    cases hpass : ipcRecv k out with
    | returned result message after =>
      rcases ipcRecv_returned_cases hpass with ⟨-, rfl⟩ | ⟨p, m, buffer, -, -, -, -, -, rfl⟩
      · exact ContextsKept.refl _
      · exact contextsKept_dequeue k p m buffer
    | slept after switch =>
      have hsleep := contextsKept_procSleep hcurrent 10#64
      rwa [ipcRecv_slept hpass] at hsleep
  | call call =>
    cases call with
    | timer => exact Or.inl (contextsKept_timerInterrupt hcurrent)
    | yield =>
      exact Or.inl (ContextsKept.of_kept (processesKept_schedule hcurrent)
        (creationField_context.schedule k))
    | sleep ms => exact Or.inl (contextsKept_procSleep hcurrent ms)
    | exit code => exact Or.inl (contextsKept_procExit hcurrent code)
    | create kstack name entry =>
      rw [perform, KernelCall.perform]
      rcases hcreate : procCreate entryPoints kstack name entry k with ⟨_ | p, next⟩
      · left
        rcases procCreate_cases entryPoints kstack name entry k with hsame | ⟨p, -, -, hcases⟩
        · rw [hsame] at hcreate
          cases hcreate
          exact ContextsKept.refl k
        · rw [hcases] at hcreate
          cases hcreate
      · exact Or.inr ⟨rfl, p, _, rfl, stackCreated_procCreate hcreate⟩
    | createElf pages entry =>
      rw [perform, KernelCall.perform]
      rcases hcreate : procCreateElf entryPoints pages entry k with ⟨_ | p, next⟩
      · left
        rcases procCreateElf_cases entryPoints pages entry k with hsame | ⟨p, -, hcases⟩
        · rw [hsame] at hcreate
          cases hcreate
          exact ContextsKept.refl k
        · rw [hcases] at hcreate
          cases hcreate
      · exact Or.inr ⟨rfl, p, _, rfl, stackCreated_procCreateElf hcreate⟩

/-! ### Who is current -/

/-- The current process changes by the switch and not otherwise. -/
def CurrentMoved (k next : Kernel) : Option ContextSwitch → Prop
  | none => next.currentProc = k.currentProc
  | some switch => k.currentProc = some switch.old ∧ next.currentProc = some switch.new

theorem currentMoved_schedule (k : Kernel) : CurrentMoved k (schedule k).1 (schedule k).2 := by
  cases hcurrent : k.currentProc with
  | none =>
    rw [schedule, hcurrent]
    exact rfl
  | some old =>
    rcases schedule_cases hcurrent with ⟨p, -, hdispatch⟩ | ⟨-, -, hsame⟩
    · rw [hdispatch]
      exact ⟨hcurrent, dispatch_currentProc _ _⟩
    · rw [hsame]
      exact rfl

theorem currentMoved_procSleep (k : Kernel) (ms : Word) :
    CurrentMoved k (procSleep k ms).1 (procSleep k ms).2 := by
  cases hcurrent : k.currentProc with
  | none =>
    rw [procSleep, hcurrent]
    exact rfl
  | some current =>
    rw [procSleep_eq hcurrent]
    exact currentMoved_schedule (k.modify current _)

theorem currentMoved_procExit (k : Kernel) (code : Int32) :
    CurrentMoved k (procExit k code).1 (procExit k code).2 := by
  cases hcurrent : k.currentProc with
  | none =>
    rw [procExit, hcurrent]
    exact rfl
  | some current =>
    rw [procExit_eq hcurrent]
    exact currentMoved_schedule (k.modify current _)

theorem currentMoved_timerInterrupt (k : Kernel) :
    CurrentMoved k (timerInterrupt k).1 (timerInterrupt k).2 := by
  rw [timerInterrupt, schedTick]
  split_ifs
  · exact currentMoved_schedule (countdownAll { k with ticks := k.ticks + 1#64 })
  · exact rfl

/-- Every step moves the current process by the switch it makes. -/
theorem SchedulerEvent.perform_current (event : SchedulerEvent) :
    CurrentMoved k (event.perform entryPoints k).1 (event.perform entryPoints k).2 := by
  cases event with
  | send dst type data len => exact (statesKept_ipcSend k dst type data len).currentProc_eq
  | recv out =>
    rw [perform]
    cases hpass : ipcRecv k out with
    | returned result message after =>
      rcases ipcRecv_returned_cases hpass with ⟨-, rfl⟩ | ⟨p, m, buffer, -, -, -, -, -, rfl⟩
      · exact rfl
      · exact (statesKept_dequeue k p m buffer).currentProc_eq
    | slept after switch =>
      have hslept := currentMoved_procSleep k 10#64
      rwa [ipcRecv_slept hpass] at hslept
  | call call =>
    cases call with
    | timer => exact currentMoved_timerInterrupt k
    | yield => exact currentMoved_schedule k
    | sleep ms => exact currentMoved_procSleep k ms
    | exit code => exact currentMoved_procExit k code
    | create kstack name entry =>
      exact (statesKept_procCreate entryPoints k kstack name entry).currentProc_eq
    | createElf pages entry =>
      exact (statesKept_procCreateElf entryPoints k pages entry).currentProc_eq

end Colix.Proc
