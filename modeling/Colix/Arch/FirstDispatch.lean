import Colix.Arch.KernelStacks
import Colix.Proc.ProcessTable

/-!
# From creation to the first dispatch

What `proc_create_elf` stores of a process's start stays in its entry until `schedule` switches to
it for the first time: no call, message or switch between other processes writes those fields
(`PendingInvariant`). `startScheduler` is among the steps, since `kernel_main` creates the shell
before any process is current.
-/

set_option autoImplicit false
set_option relaxedAutoImplicit false

namespace Colix.Arch

open Foundation Proc Ipc

/-! ### Fields kept by every step -/

/-- The fields of a process that its way to user mode reads, and the ones it should read. -/
structure StartFields where
  context : CpuContext
  cr3 : Word
  userRip : Word
  userRsp : Word
  userSp : Word
  deriving DecidableEq

/-- The start fields of a process. -/
def startFields (process : Process) : StartFields where
  context := process.context
  cr3 := process.cr3
  userRip := process.userRip
  userRsp := process.userRsp
  userSp := process.userSp

theorem creationField_startFields : CreationField startFields :=
  ⟨fun _ _ ↦ rfl, fun _ _ ↦ rfl, fun _ _ ↦ rfl, fun _ _ ↦ rfl, fun _ _ ↦ rfl, fun _ _ ↦ rfl,
    fun _ _ ↦ rfl⟩

variable {k next : Kernel} {entryPoints : EntryPoints}

/-- No step writes a field that only creation writes, in an entry in use. -/
theorem perform_creationField {α : Type*} {field : Process → α} (hfield : CreationField field)
    (event : SchedulerEvent) {i : ProcIndex} (hused : (k.procTable i).state ≠ .unused) :
    field ((event.perform entryPoints k).1.procTable i) = field (k.procTable i) := by
  cases event with
  | send dst type data len => exact hfield.ipcSend k i dst type data len
  | recv out =>
    rw [SchedulerEvent.perform]
    cases hpass : ipcRecv k out with
    | returned result message after =>
      rcases ipcRecv_returned_cases hpass with ⟨-, rfl⟩ | ⟨p, m, buffer, -, -, -, -, -, rfl⟩
      · rfl
      · exact hfield.dequeue k i p m buffer
    | slept after switch =>
      have hsleep := hfield.procSleep k i 10#64
      rwa [ipcRecv_slept hpass] at hsleep
  | call call =>
    cases call with
    | timer => exact hfield.timerInterrupt k i
    | yield => exact hfield.schedule k i
    | sleep ms => exact hfield.procSleep k i ms
    | exit code => exact hfield.procExit k i code
    | create kstack name entry =>
      rw [SchedulerEvent.perform, KernelCall.perform]
      rcases procCreate_cases entryPoints kstack name entry k with hsame | ⟨p, hunused, -, hcreate⟩
      · rw [hsame]
      · have hne : i ≠ p := fun heq ↦ hused (heq ▸ hunused)
        have hadded := processAdded_procCreate hcreate
        rw [hcreate]
        exact congrArg field (hadded.procTable_of_ne i hne)
    | createElf pages entry =>
      rw [SchedulerEvent.perform, KernelCall.perform]
      rcases procCreateElf_cases entryPoints pages entry k with hsame | ⟨p, hunused, hcreate⟩
      · rw [hsame]
      · have hne : i ≠ p := fun heq ↦ hused (heq ▸ hunused)
        have hadded := processAdded_procCreateElf hcreate
        rw [hcreate]
        exact congrArg field (hadded.procTable_of_ne i hne)

/-- Entries in use stay in use, and the current one is among them. -/
structure UseKept (k next : Kernel) : Prop where
  current : CurrentInUse next
  used : ∀ i, (k.procTable i).state ≠ .unused → (next.procTable i).state ≠ .unused

theorem UseKept.of_identities (hkept : IdentitiesKept k next) : UseKept k next :=
  ⟨hkept.current, fun i hi ↦ (hkept.unused_iff i).not.mpr hi⟩

theorem UseKept.of_added {p : ProcIndex} (hcurrent : CurrentInUse k)
    (hadded : ProcessAdded k next p) : UseKept k next := by
  have hused : ∀ i, (k.procTable i).state ≠ .unused → (next.procTable i).state ≠ .unused := by
    intro i hi
    have hne : i ≠ p := fun heq ↦ hi (heq ▸ hadded.unused_before)
    rwa [hadded.procTable_of_ne i hne]
  refine ⟨fun i hi ↦ hused i (hcurrent i ?_), hused⟩
  rw [← hadded.currentProc_eq, hi]

theorem useKept_perform (hcurrent : CurrentInUse k) (event : SchedulerEvent) :
    UseKept k (event.perform entryPoints k).1 := by
  cases hstack : createdStack event with
  | none => exact UseKept.of_identities (identitiesKept_perform hcurrent hstack)
  | some stack =>
    cases event with
    | send dst type data len => cases hstack
    | recv out => cases hstack
    | call call =>
      rcases call.perform_cases hcurrent entryPoints with hkept | ⟨p, hadded⟩
      · exact UseKept.of_identities (IdentitiesKept.of_kept hkept)
      · exact UseKept.of_added hcurrent hadded

/-! ### The process before it has run -/

/-- What happens meanwhile: a step of the kernel, with what its caller is to be resumed with, or the
start of the scheduler. -/
inductive PendingEvent
  | step (event : SchedulerEvent) (caller : CpuContext)
  | startScheduler (idle : ProcIndex)

/-- Runs from a `proc_create_elf` that returned `p`, as long as nothing switches to `p`. -/
def pendingSystem (entryPoints : EntryPoints) (pages : ElfPages) (entry : Word) (p : ProcIndex) :
    TransitionSystem Kernel PendingEvent where
  start k := ∃ before, CurrentInUse before ∧
    procCreateElf entryPoints pages entry before = (some p, k)
  step k event next :=
    match event with
    | .step event caller =>
      (∀ switch, (event.perform entryPoints k).2 = some switch → switch.new ≠ p) ∧
        next = resume (event.perform entryPoints k).1 caller (event.perform entryPoints k).2
    | .startScheduler idle =>
      idle ≠ p ∧ (k.procTable idle).state ≠ .unused ∧ next = startScheduler k idle

/-- The start fields that `proc_create_elf` stores. The field `user_sp` is not among those it
writes, so it is zero from `alloc_proc_slot`. -/
def createdFields (entryPoints : EntryPoints) (pages : ElfPages) (entry : Word) : StartFields where
  context :=
    { r15 := 0#64
      r14 := 0#64
      r13 := 0#64
      r12 := 0#64
      rbx := 0#64
      rbp := 0#64
      rip := entryPoints.procEntryUser
      rsp := pages.kernelStack + 0x1000#64 }
  cr3 := pages.newPml4Pa
  userRip := entry
  userRsp := userStackTop
  userSp := 0#64

/-- The new process is in use, is not the current one, and has the fields it was created with. -/
structure PendingInvariant (entryPoints : EntryPoints) (pages : ElfPages) (entry : Word)
    (p : ProcIndex) (k : Kernel) : Prop where
  current : CurrentInUse k
  used : (k.procTable p).state ≠ .unused
  not_current : k.currentProc ≠ some p
  fields : startFields (k.procTable p) = createdFields entryPoints pages entry

variable {pages : ElfPages} {entry : Word} {p : ProcIndex}

theorem PendingInvariant.start (hstart : (pendingSystem entryPoints pages entry p).start k) :
    PendingInvariant entryPoints pages entry p k := by
  obtain ⟨before, hcurrent, hcreate⟩ := hstart
  have hadded := processAdded_procCreateElf hcreate
  have hkept := UseKept.of_added hcurrent hadded
  refine ⟨hkept.current, ?_, ?_, ?_⟩
  · rw [hadded.used_after]
    exact ProcState.noConfusion
  · rw [hadded.currentProc_eq]
    exact fun heq ↦ hcurrent p heq hadded.unused_before
  · rcases procCreateElf_cases entryPoints pages entry before with hfail | ⟨i, -, hcases⟩
    · rw [hfail] at hcreate
      cases hcreate
    · rw [hcases] at hcreate
      cases hcreate
      exact congrArg startFields (before.modify_procTable_self p fun _ ↦ createdElfProcess
        entryPoints pages entry before.nextPid { Process.zero with state := .ready })

/-- A step of the kernel before its switch. -/
theorem PendingInvariant.perform (hinv : PendingInvariant entryPoints pages entry p k)
    (event : SchedulerEvent) :
    ((event.perform entryPoints k).1.procTable p).state ≠ .unused ∧
      startFields ((event.perform entryPoints k).1.procTable p) =
        createdFields entryPoints pages entry :=
  ⟨(useKept_perform hinv.current event).used p hinv.used,
    (perform_creationField creationField_startFields event hinv.used).trans hinv.fields⟩

/-- The step lemma. -/
theorem PendingInvariant.step {event : PendingEvent}
    (hinv : PendingInvariant entryPoints pages entry p k)
    (hstep : (pendingSystem entryPoints pages entry p).step k event next) :
    PendingInvariant entryPoints pages entry p next := by
  cases event with
  | startScheduler idle =>
    obtain ⟨hne, hidle, rfl⟩ := hstep
    have hkept := UseKept.of_identities
      (IdentitiesKept.of_kept (processesKept_startScheduler hidle))
    have hsame : (startScheduler k idle).procTable p = k.procTable p :=
      Kernel.modify_procTable_of_ne _ _ hne.symm
    refine ⟨hkept.current, hkept.used p hinv.used, ?_, by rw [hsame, hinv.fields]⟩
    exact fun heq ↦ hne (Option.some.inj heq)
  | step event caller =>
    obtain ⟨hother, rfl⟩ := hstep
    obtain ⟨hused, hfields⟩ := hinv.perform event
    have hkept : UseKept k (event.perform entryPoints k).1 := useKept_perform hinv.current event
    have hmoved : CurrentMoved k (event.perform entryPoints k).1 (event.perform entryPoints k).2 :=
      event.perform_current
    cases hswitch : (event.perform entryPoints k).2 with
    | none =>
      rw [hswitch] at hmoved
      refine ⟨hkept.current, hused, ?_, hfields⟩
      rw [resume, hmoved]
      exact hinv.not_current
    | some switch =>
      rw [hswitch] at hmoved
      obtain ⟨hold, hnew⟩ := hmoved
      have hne : p ≠ switch.old := fun heq ↦ hinv.not_current (heq ▸ hold)
      have hsame : (switchContext (event.perform entryPoints k).1 caller switch).procTable p =
          (event.perform entryPoints k).1.procTable p := Kernel.modify_procTable_of_ne _ _ hne
      refine ⟨fun i hi ↦ ?_, by rw [resume, hsame]; exact hused, ?_, by rw [resume, hsame, hfields]⟩
      · rw [resume_state]
        exact hkept.current i hi
      · change (event.perform entryPoints k).1.currentProc ≠ some p
        rw [hnew]
        exact fun heq ↦ hother switch hswitch (Option.some.inj heq)

/-- The run lemma. -/
theorem PendingInvariant.of_run {events : List PendingEvent}
    (hrun : (pendingSystem entryPoints pages entry p).Run events k) :
    PendingInvariant entryPoints pages entry p k :=
  hrun.invariant (fun _ hstart ↦ PendingInvariant.start hstart) fun _ _ _ hinv hstep ↦
    hinv.step hstep

/-- The first switch to the process: it comes from another one, and finds the fields as they were
created. -/
theorem PendingInvariant.dispatch {event : SchedulerEvent} {old : ProcIndex}
    (hinv : PendingInvariant entryPoints pages entry p k)
    (hdispatch : event.perform entryPoints k = (next, some ⟨old, p⟩)) :
    old ≠ p ∧ startFields (next.procTable p) = createdFields entryPoints pages entry := by
  have hmoved : CurrentMoved k (event.perform entryPoints k).1 (event.perform entryPoints k).2 :=
    event.perform_current
  have hfields := (hinv.perform event).2
  rw [hdispatch] at hmoved hfields
  refine ⟨fun heq ↦ hinv.not_current ?_, hfields⟩
  rw [hmoved.1, heq]

end Colix.Arch
