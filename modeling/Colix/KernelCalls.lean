import Colix.Ipc.Ipc
import Colix.Proc.Lifecycle

/-!
# Kernel calls

The calls that reach the process table from outside, other than sending and receiving: the timer
interrupt, the scheduling calls of the current process, and process creation. `KernelCall.perform`
is one such call as a state change. `KernelCall.perform_cases` says all that a call can do to the
identity and the mailbox of every process.
-/

set_option autoImplicit false
set_option relaxedAutoImplicit false

namespace Colix

open Proc Ipc

/-- A call of the current process, or the timer interrupt. -/
inductive KernelCall
  | timer
  | yield
  | sleep (ms : Word)
  | exit (code : Int32)
  | create (kstack : Word) (name : List Byte) (entry : Word)
  | createElf (pages : ElfPages) (entry : Word)

/-- The state after a call, with the context switch it makes. -/
def KernelCall.perform (entryPoints : EntryPoints) (k : Kernel) :
    KernelCall → Kernel × Option ContextSwitch
  | .timer => timerInterrupt k
  | .yield => procYield k
  | .sleep ms => procSleep k ms
  | .exit code => procExit k code
  | .create kstack name entry => ((procCreate entryPoints kstack name entry k).2, none)
  | .createElf pages entry => ((procCreateElf entryPoints pages entry k).2, none)

/-- What other processes know a process by: its pid and its message queue. -/
def Process.mailbox (process : Process) : Pid × Option MsgIndex × Option MsgIndex × Word32 :=
  (process.pid, process.msgQueue, process.msgTail, process.msgCount)

/-- Every process keeps its identity and its mailbox, and a process in use is current. -/
structure ProcessesKept (k next : Kernel) : Prop where
  msgPool_eq : next.msgPool = k.msgPool
  msgUsed_eq : next.msgUsed = k.msgUsed
  nextPid_eq : next.nextPid = k.nextPid
  mailbox_eq : ∀ i, (next.procTable i).mailbox = (k.procTable i).mailbox
  unused_iff : ∀ i, (next.procTable i).state = .unused ↔ (k.procTable i).state = .unused
  current : ∀ i, next.currentProc = some i → (next.procTable i).state ≠ .unused

/-- The entry `p`, UNUSED before, is a new process with the next pid and an empty queue, and every
other entry is unchanged. -/
structure ProcessAdded (k next : Kernel) (p : ProcIndex) : Prop where
  msgPool_eq : next.msgPool = k.msgPool
  msgUsed_eq : next.msgUsed = k.msgUsed
  nextPid_eq : next.nextPid = k.nextPid + 1
  currentProc_eq : next.currentProc = k.currentProc
  unused_before : (k.procTable p).state = .unused
  used_after : (next.procTable p).state = .ready
  mailbox_added : (next.procTable p).mailbox = (k.nextPid, none, none, 0#32)
  procTable_of_ne : ∀ i, i ≠ p → next.procTable i = k.procTable i

variable {k next last : Kernel}

/-- A process in use is current. -/
def CurrentInUse (k : Kernel) : Prop :=
  ∀ i, k.currentProc = some i → (k.procTable i).state ≠ .unused

theorem ProcessesKept.refl (hcurrent : CurrentInUse k) : ProcessesKept k k :=
  ⟨rfl, rfl, rfl, fun _ ↦ rfl, fun _ ↦ Iff.rfl, hcurrent⟩

theorem ProcessesKept.trans (hfirst : ProcessesKept k next) (hsecond : ProcessesKept next last) :
    ProcessesKept k last where
  msgPool_eq := hsecond.msgPool_eq.trans hfirst.msgPool_eq
  msgUsed_eq := hsecond.msgUsed_eq.trans hfirst.msgUsed_eq
  nextPid_eq := hsecond.nextPid_eq.trans hfirst.nextPid_eq
  mailbox_eq i := (hsecond.mailbox_eq i).trans (hfirst.mailbox_eq i)
  unused_iff i := (hsecond.unused_iff i).trans (hfirst.unused_iff i)
  current := hsecond.current

/-- Writes to one entry that keep its mailbox and leave it in use. -/
theorem ProcessesKept.modify (hcurrent : CurrentInUse k) (i : ProcIndex) (f : Process → Process)
    (hmailbox : ∀ process, (f process).mailbox = process.mailbox)
    (hused : (k.procTable i).state ≠ .unused)
    (hstill : (f (k.procTable i)).state ≠ .unused) : ProcessesKept k (k.modify i f) := by
  have hunused : ∀ j, ((k.modify i f).procTable j).state = .unused ↔
      (k.procTable j).state = .unused := by
    intro j
    by_cases heq : j = i
    · rw [heq, Kernel.modify_procTable_self]
      exact iff_of_false hstill hused
    · rw [Kernel.modify_procTable_of_ne k f heq]
  refine ⟨rfl, rfl, rfl, fun j ↦ k.modify_field i j f Process.mailbox hmailbox, hunused, ?_⟩
  intro j hj
  rw [ne_eq, hunused]
  exact hcurrent j hj

/-- An UNUSED entry filled in, with the pid counter advanced. -/
theorem ProcessAdded.of_modify (p : ProcIndex) (f : Process → Process)
    (hunused : (k.procTable p).state = .unused) (hready : (f (k.procTable p)).state = .ready)
    (hmailbox : (f (k.procTable p)).mailbox = (k.nextPid, none, none, 0#32)) :
    ProcessAdded k { k.modify p f with nextPid := k.nextPid + 1 } p := by
  refine ⟨rfl, rfl, rfl, rfl, hunused, ?_, ?_, fun i hne ↦ k.modify_procTable_of_ne f hne⟩
  · rw [← hready]
    exact congrArg Process.state (k.modify_procTable_self p f)
  · rw [← hmailbox]
    exact congrArg Process.mailbox (k.modify_procTable_self p f)

/-- The pid of an entry, read off its mailbox. -/
theorem ProcessesKept.pid_eq (hkept : ProcessesKept k next) (i : ProcIndex) :
    (next.procTable i).pid = (k.procTable i).pid :=
  congrArg Prod.fst (hkept.mailbox_eq i)

theorem ProcessAdded.pid_added {p : ProcIndex} (hadded : ProcessAdded k next p) :
    (next.procTable p).pid = k.nextPid :=
  congrArg Prod.fst hadded.mailbox_added

/-- A creation that succeeds adds a process. -/
theorem processAdded_procCreate {entryPoints : EntryPoints} {kstack entry : Word}
    {name : List Byte} {p : ProcIndex}
    (hcreate : procCreate entryPoints kstack name entry k = (some p, next)) :
    ProcessAdded k next p := by
  rcases procCreate_cases entryPoints kstack name entry k with hfail | ⟨i, hunused, -, hcases⟩
  · rw [hfail] at hcreate
    cases hcreate
  · rw [hcases] at hcreate
    cases hcreate
    exact ProcessAdded.of_modify p _ hunused rfl rfl

theorem processAdded_procCreateElf {entryPoints : EntryPoints} {pages : ElfPages} {entry : Word}
    {p : ProcIndex} (hcreate : procCreateElf entryPoints pages entry k = (some p, next)) :
    ProcessAdded k next p := by
  rcases procCreateElf_cases entryPoints pages entry k with hfail | ⟨i, hunused, hcases⟩
  · rw [hfail] at hcreate
    cases hcreate
  · rw [hcases] at hcreate
    cases hcreate
    exact ProcessAdded.of_modify p _ hunused rfl rfl

/-- A creation fails and changes nothing, or adds the process it returns. -/
def Creates (k : Kernel) (result : Option ProcIndex × Kernel) : Prop :=
  result = (none, k) ∨ ∃ p next, result = (some p, next) ∧ ProcessAdded k next p

theorem procCreate_creates (entryPoints : EntryPoints) (kstack : Word) (name : List Byte)
    (entry : Word) (k : Kernel) : Creates k (procCreate entryPoints kstack name entry k) := by
  rcases procCreate_cases entryPoints kstack name entry k with hsame | ⟨p, hunused, -, hcreate⟩
  · exact Or.inl hsame
  · exact Or.inr ⟨p, _, hcreate, ProcessAdded.of_modify p _ hunused rfl rfl⟩

theorem procCreateElf_creates (entryPoints : EntryPoints) (pages : ElfPages) (entry : Word)
    (k : Kernel) : Creates k (procCreateElf entryPoints pages entry k) := by
  rcases procCreateElf_cases entryPoints pages entry k with hsame | ⟨p, hunused, hcreate⟩
  · exact Or.inl hsame
  · exact Or.inr ⟨p, _, hcreate, ProcessAdded.of_modify p _ hunused rfl rfl⟩

/-- What a creation leaves of the kernel. -/
theorem Creates.added {result : Option ProcIndex × Kernel} (hcreates : Creates k result) :
    result.2 = k ∨ ∃ p, ProcessAdded k result.2 p := by
  rcases hcreates with rfl | ⟨p, next, rfl, hadded⟩
  · exact Or.inl rfl
  · exact Or.inr ⟨p, hadded⟩

/-- `schedule` moves the processor between processes and changes nothing else they are known by. -/
theorem processesKept_schedule (hcurrent : CurrentInUse k) : ProcessesKept k (schedule k).1 := by
  obtain ⟨hpool, hused, -, hpid⟩ := schedule_frame k
  have hunused : ∀ i, ((schedule k).1.procTable i).state = .unused ↔
      (k.procTable i).state = .unused := by
    intro i
    cases hsome : k.currentProc with
    | none => rw [schedule, hsome]
    | some old =>
      rcases schedule_cases hsome with ⟨p, hfind, hdispatch⟩ | ⟨-, -, hsame⟩
      · have hready := state_of_nextReady hfind
        rw [requeue_state] at hready
        rw [hdispatch, dispatch_state, requeue_state]
        split_ifs at hready ⊢ <;> simp_all
      · rw [hsame]
  refine ⟨hpool, hused, hpid, fun i ↦ ?_, hunused, fun i hi ↦ ?_⟩
  · exact schedule_field Process.mailbox (fun _ _ ↦ rfl) (fun _ _ ↦ rfl) k i
  · cases hsome : k.currentProc with
    | none =>
      rw [schedule, hsome] at hi
      rw [hsome] at hi
      cases hi
    | some old =>
      rcases schedule_cases hsome with ⟨p, -, hdispatch⟩ | ⟨-, -, hsame⟩
      · rw [hdispatch, dispatch_currentProc] at hi
        cases hi
        rw [hdispatch, dispatch_state, if_pos rfl]
        exact fun h ↦ ProcState.noConfusion h
      · rw [hsame] at hi ⊢
        exact hcurrent i hi

theorem countdown_unused_iff (process : Process) :
    (countdown process).state = .unused ↔ process.state = .unused := by
  simp only [countdown]
  split_ifs with hsleeping <;> simp [hsleeping]

/-- The countdown of `sched_tick` wakes sleepers and changes nothing else. -/
theorem processesKept_countdownAll (hcurrent : CurrentInUse k) :
    ProcessesKept k (countdownAll k) := by
  have hmailbox : ∀ process, (countdown process).mailbox = process.mailbox := by
    intro process
    simp only [countdown]
    split_ifs <;> rfl
  refine ⟨rfl, rfl, rfl, fun i ↦ hmailbox _, fun i ↦ countdown_unused_iff _, fun i hi ↦ ?_⟩
  rw [ne_eq, show (countdownAll k).procTable i = countdown (k.procTable i) from rfl,
    countdown_unused_iff]
  exact hcurrent i hi

theorem processesKept_timerInterrupt (hcurrent : CurrentInUse k) :
    ProcessesKept k (timerInterrupt k).1 := by
  have hclock : ProcessesKept k { k with ticks := k.ticks + 1#64 } :=
    ⟨rfl, rfl, rfl, fun _ ↦ rfl, fun _ ↦ Iff.rfl, hcurrent⟩
  have hticked := hclock.trans (processesKept_countdownAll hclock.current)
  rw [timerInterrupt, schedTick]
  split_ifs
  · exact hticked.trans (processesKept_schedule hticked.current)
  · exact hticked

theorem processesKept_procWakeup (hcurrent : CurrentInUse k) (p : ProcIndex) :
    ProcessesKept k (procWakeup k p) := by
  rw [procWakeup]
  split_ifs with hsleeping
  · refine ProcessesKept.modify hcurrent p _ (fun _ ↦ rfl) ?_ fun h ↦ ProcState.noConfusion h
    rw [hsleeping]
    exact fun h ↦ ProcState.noConfusion h
  · exact ProcessesKept.refl hcurrent

theorem processesKept_procSleep (hcurrent : CurrentInUse k) (ms : Word) :
    ProcessesKept k (procSleep k ms).1 := by
  rw [procSleep]
  cases hsome : k.currentProc with
  | none => exact ProcessesKept.refl hcurrent
  | some current =>
    have hmarked := ProcessesKept.modify hcurrent current (fun process ↦
      { process with sleepTicks := sleepTicksOf ms, state := .sleeping }) (fun _ ↦ rfl)
      (hcurrent current hsome) (fun h ↦ ProcState.noConfusion h)
    exact hmarked.trans (processesKept_schedule hmarked.current)

theorem processesKept_procExit (hcurrent : CurrentInUse k) (code : Int32) :
    ProcessesKept k (procExit k code).1 := by
  rw [procExit]
  cases hsome : k.currentProc with
  | none => exact ProcessesKept.refl hcurrent
  | some current =>
    have hmarked := ProcessesKept.modify hcurrent current (fun process ↦
      { process with state := .zombie, exitCode := code }) (fun _ ↦ rfl)
      (hcurrent current hsome) (fun h ↦ ProcState.noConfusion h)
    exact hmarked.trans (processesKept_schedule hmarked.current)

/-- All that a call can do to the identity and the mailbox of every process: keep them, or add one
process with the next pid. -/
theorem KernelCall.perform_cases (hcurrent : CurrentInUse k) (entryPoints : EntryPoints)
    (call : KernelCall) :
    ProcessesKept k (call.perform entryPoints k).1 ∨
      ∃ p, ProcessAdded k (call.perform entryPoints k).1 p := by
  cases call with
  | timer => exact Or.inl (processesKept_timerInterrupt hcurrent)
  | yield => exact Or.inl (processesKept_schedule hcurrent)
  | sleep ms => exact Or.inl (processesKept_procSleep hcurrent ms)
  | exit code => exact Or.inl (processesKept_procExit hcurrent code)
  | create kstack name entry =>
    rw [KernelCall.perform]
    rcases (procCreate_creates entryPoints kstack name entry k).added with hsame | hadded
    · rw [hsame]
      exact Or.inl (ProcessesKept.refl hcurrent)
    · exact Or.inr hadded
  | createElf pages entry =>
    rw [KernelCall.perform]
    rcases (procCreateElf_creates entryPoints pages entry k).added with hsame | hadded
    · rw [hsame]
      exact Or.inl (ProcessesKept.refl hcurrent)
    · exact Or.inr hadded

/-- Making a process current and RUNNING keeps every mailbox. Assumes: the process is in use. -/
theorem processesKept_startScheduler {idle : ProcIndex}
    (hused : (k.procTable idle).state ≠ .unused) : ProcessesKept k (startScheduler k idle) := by
  have hmoved : ProcessesKept k { k with currentProc := some idle } := by
    refine ⟨rfl, rfl, rfl, fun _ ↦ rfl, fun _ ↦ Iff.rfl, ?_⟩
    rintro i ⟨⟩
    exact hused
  refine hmoved.trans (ProcessesKept.modify hmoved.current idle _ (fun _ ↦ rfl) hused ?_)
  exact fun h ↦ ProcState.noConfusion (show ProcState.running = .unused from h)

/-- `kernel_main` creates the idle process, perhaps the shell, and makes idle current. -/
theorem kernelMain_cases {entryPoints : EntryPoints} {procIdle idleStack : Word}
    {shell : Option (ElfPages × Word)} {idle : ProcIndex}
    (hmain : kernelMain entryPoints procIdle idleStack shell = some (idle, k)) :
    ∃ first second, ProcessAdded (procInit Kernel.bss) first idle ∧
      (second = first ∨ ∃ p, ProcessAdded first second p) ∧
      (second.procTable idle).state = .ready ∧ k = startScheduler second idle := by
  rw [kernelMain] at hmain
  rcases hidle : procCreate entryPoints idleStack [0x69#8, 0x64#8, 0x6C#8, 0x65#8] procIdle
    (procInit Kernel.bss) with ⟨_ | i, first⟩
  · rw [hidle] at hmain
    cases hmain
  · rw [hidle] at hmain
    have hfirst := processAdded_procCreate hidle
    rcases shell with _ | ⟨pages, entry⟩
    · cases hmain
      exact ⟨first, first, hfirst, Or.inl rfl, hfirst.used_after, rfl⟩
    · rcases hshell : procCreateElf entryPoints pages entry first with ⟨_ | p, second⟩
      · simp [hshell] at hmain
      · simp only [hshell, Option.some.injEq, Prod.mk.injEq] at hmain
        obtain ⟨rfl, rfl⟩ := hmain
        have hsecond := processAdded_procCreateElf hshell
        refine ⟨first, second, hfirst, Or.inr ⟨p, hsecond⟩, ?_, rfl⟩
        have hne : i ≠ p := by
          rintro rfl
          have hunused := hsecond.unused_before
          rw [hfirst.used_after] at hunused
          cases hunused
        rw [hsecond.procTable_of_ne i hne]
        exact hfirst.used_after

end Colix
