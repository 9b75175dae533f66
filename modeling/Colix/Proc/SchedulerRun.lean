import Colix.Foundation.Execution
import Colix.KernelCalls

/-!
# The scheduler along runs

`SchedulerInvariant` says that one process runs, that it is the current one, and that idle can
always run. `schedule` re-establishes it from any state in which nobody but the current process is
RUNNING (`schedule_dispatches`), so its fall-through is never taken from a process that has gone to
sleep or exited. Everything else a step does is captured by `StatesKept`. `scheduler_run_correct`
states the result for every run from `kernel_main`.
-/

set_option autoImplicit false
set_option relaxedAutoImplicit false

namespace Colix.Proc

open Foundation Ipc

/-- A step of a run: a call or the timer interrupt, a send, or a pass of a receive. -/
inductive SchedulerEvent
  | call (call : KernelCall)
  | send (dst : Pid) (type : Word32) (data : Option (ℕ → Byte)) (len : Word32)
  | recv (out : Option IpcMessage)

/-- Runs of the kernel from `kernel_main`. The idle process itself makes no calls. -/
def schedulerSystem (entryPoints : EntryPoints) (idle : ProcIndex) :
    TransitionSystem Kernel SchedulerEvent where
  start k := ∃ procIdle idleStack shell,
    kernelMain entryPoints procIdle idleStack shell = some (idle, k)
  step k event next :=
    match event with
    | .call call =>
      (call = .timer ∨ k.currentProc ≠ some idle) ∧ (call.perform entryPoints k).1 = next
    | .send dst type data len =>
      k.currentProc ≠ some idle ∧ (ipcSend k dst type data len).2 = next
    | .recv out => k.currentProc ≠ some idle ∧ (ipcRecv k out).kernel = next

/-! ### The invariant -/

/-- The current process is the one RUNNING entry, and idle is READY or RUNNING. -/
structure SchedulerInvariant (idle : ProcIndex) (k : Kernel) (current : ProcIndex) : Prop where
  current_eq : k.currentProc = some current
  running_iff : ∀ i, (k.procTable i).state = .running ↔ i = current
  idle_runnable : (k.procTable idle).state = .ready ∨ (k.procTable idle).state = .running

/-- The states `schedule` is entered in: nobody but the current process is RUNNING, and idle is
READY or RUNNING. -/
structure SchedulerEntry (idle : ProcIndex) (k : Kernel) (current : ProcIndex) : Prop where
  current_eq : k.currentProc = some current
  not_running : ∀ i, i ≠ current → (k.procTable i).state ≠ .running
  idle_runnable : (k.procTable idle).state = .ready ∨ (k.procTable idle).state = .running

variable {idle current : ProcIndex} {k next : Kernel}

theorem SchedulerInvariant.entry (hinv : SchedulerInvariant idle k current) :
    SchedulerEntry idle k current where
  current_eq := hinv.current_eq
  not_running i hne hrunning := hne ((hinv.running_iff i).mp hrunning)
  idle_runnable := hinv.idle_runnable

/-- `schedule` always finds a READY process, and the state after it has one process RUNNING. -/
theorem schedule_dispatches (hentry : SchedulerEntry idle k current) :
    ∃ p, schedule k = (dispatch (requeue k current) p, some ⟨current, p⟩) ∧
      nextReady (requeue k current) current = some p ∧
      SchedulerInvariant idle (schedule k).1 p := by
  rcases schedule_cases hentry.current_eq with ⟨p, hfind, hdispatch⟩ | ⟨hnone, hstopped, -⟩
  · have hstate := fun i ↦ dispatch_state (requeue k current) p i
    refine ⟨p, hdispatch, hfind, ?_⟩
    rw [hdispatch]
    refine ⟨dispatch_currentProc _ _, fun i ↦ ?_, ?_⟩
    · rw [hstate]
      by_cases hp : i = p
      · rw [if_pos hp]
        exact iff_of_true rfl hp
      · rw [if_neg hp, requeue_state]
        refine iff_of_false (fun hrunning ↦ ?_) hp
        split_ifs at hrunning with hrequeued
        by_cases hcurrent : i = current
        · exact hrequeued ⟨hcurrent, hcurrent ▸ hrunning⟩
        · exact hentry.not_running i hcurrent hrunning
    · rw [hstate, requeue_state]
      split_ifs
      · exact Or.inr rfl
      · exact Or.inl rfl
      · exact hentry.idle_runnable
  · -- idle would be neither READY nor RUNNING
    rcases hentry.idle_runnable with hready | hrunning
    · exact absurd hready (hnone idle)
    · by_cases heq : idle = current
      · exact absurd (heq ▸ hrunning) hstopped
      · exact absurd hrunning (hentry.not_running idle heq)

/-- `schedule` entered with the current process neither RUNNING nor READY leaves it for another. -/
theorem schedule_leaves (hentry : SchedulerEntry idle k current)
    (hstopped : (k.procTable current).state ≠ .running)
    (hnotReady : (k.procTable current).state ≠ .ready) :
    ∃ p, p ≠ current ∧ (schedule k).2 = some ⟨current, p⟩ := by
  obtain ⟨p, hschedule, hfind, -⟩ := schedule_dispatches hentry
  refine ⟨p, ?_, by rw [hschedule]⟩
  rintro rfl
  have hready := state_of_nextReady hfind
  rw [requeue_state, if_neg fun h ↦ hstopped h.2] at hready
  exact hnotReady hready

/-! ### Exited processes -/

/-- The entry is a ZOMBIE with this exit code. -/
def Exited (k : Kernel) (i : ProcIndex) (code : Int32) : Prop :=
  (k.procTable i).state = .zombie ∧ (k.procTable i).exitCode = code

/-- `schedule` leaves exited processes alone. -/
theorem exited_schedule {i : ProcIndex} {code : Int32} (hexited : Exited k i code) :
    Exited (schedule k).1 i code := by
  refine ⟨?_, ?_⟩
  · cases hcurrent : k.currentProc with
    | none =>
      rw [schedule, hcurrent]
      exact hexited.1
    | some old =>
      rcases schedule_cases hcurrent with ⟨p, hfind, hdispatch⟩ | ⟨-, -, hsame⟩
      · have hready := state_of_nextReady hfind
        have hrequeue : ((requeue k old).procTable i).state = .zombie := by
          rw [requeue_state, if_neg]
          · exact hexited.1
          · rintro ⟨rfl, hrunning⟩
            rw [hexited.1] at hrunning
            cases hrunning
        have hne : i ≠ p := by
          rintro rfl
          rw [hrequeue] at hready
          cases hready
        rw [hdispatch, dispatch_state, if_neg hne]
        exact hrequeue
      · rw [hsame]
        exact hexited.1
  · rw [← hexited.2]
    exact schedule_field Process.exitCode (fun _ _ ↦ rfl) (fun _ _ ↦ rfl) k i

/-! ### Steps that do not schedule -/

/-- The current process, the RUNNING and READY entries and the exited processes are kept. -/
structure StatesKept (k next : Kernel) : Prop where
  currentProc_eq : next.currentProc = k.currentProc
  running_iff : ∀ i, (next.procTable i).state = .running ↔ (k.procTable i).state = .running
  ready : ∀ i, (k.procTable i).state = .ready → (next.procTable i).state = .ready
  exited : ∀ i code, Exited k i code → Exited next i code

theorem StatesKept.refl (k : Kernel) : StatesKept k k :=
  ⟨rfl, fun _ ↦ Iff.rfl, fun _ h ↦ h, fun _ _ h ↦ h⟩

theorem StatesKept.trans {last : Kernel} (hfirst : StatesKept k next)
    (hsecond : StatesKept next last) : StatesKept k last where
  currentProc_eq := hsecond.currentProc_eq.trans hfirst.currentProc_eq
  running_iff i := (hsecond.running_iff i).trans (hfirst.running_iff i)
  ready i h := hsecond.ready i (hfirst.ready i h)
  exited i code h := hsecond.exited i code (hfirst.exited i code h)

/-- Steps that keep every state and exit code keep the states. -/
theorem StatesKept.of_eq (hcurrent : next.currentProc = k.currentProc)
    (hstate : ∀ i, (next.procTable i).state = (k.procTable i).state)
    (hcode : ∀ i, (next.procTable i).exitCode = (k.procTable i).exitCode) : StatesKept k next where
  currentProc_eq := hcurrent
  running_iff i := by rw [hstate]
  ready i h := by rw [hstate, h]
  exited i code h := ⟨(hstate i).trans h.1, (hcode i).trans h.2⟩

theorem SchedulerInvariant.kept (hinv : SchedulerInvariant idle k current)
    (hkept : StatesKept k next) : SchedulerInvariant idle next current where
  current_eq := hkept.currentProc_eq.trans hinv.current_eq
  running_iff i := (hkept.running_iff i).trans (hinv.running_iff i)
  idle_runnable := hinv.idle_runnable.imp (hkept.ready idle) (hkept.running_iff idle).mpr

theorem SchedulerEntry.kept (hentry : SchedulerEntry idle k current) (hkept : StatesKept k next) :
    SchedulerEntry idle next current where
  current_eq := hkept.currentProc_eq.trans hentry.current_eq
  not_running i hne := (hkept.running_iff i).not.mpr (hentry.not_running i hne)
  idle_runnable := hentry.idle_runnable.imp (hkept.ready idle) (hkept.running_iff idle).mpr

/-- A new process is READY, and nobody else is touched. -/
theorem statesKept_of_added {p : ProcIndex} (hadded : ProcessAdded k next p) :
    StatesKept k next where
  currentProc_eq := hadded.currentProc_eq
  running_iff i := by
    by_cases heq : i = p
    · rw [heq, hadded.used_after, hadded.unused_before]
      exact iff_of_false ProcState.noConfusion ProcState.noConfusion
    · rw [hadded.procTable_of_ne i heq]
  ready i h := by
    by_cases heq : i = p
    · rw [heq]
      exact hadded.used_after
    · rw [hadded.procTable_of_ne i heq, h]
  exited i code h := by
    have hne : i ≠ p := by
      rintro rfl
      rw [Exited, hadded.unused_before] at h
      cases h.1
    rw [Exited, hadded.procTable_of_ne i hne]
    exact h

/-- Waking a process touches no RUNNING, READY or exited one. -/
theorem statesKept_procWakeup (k : Kernel) (p : ProcIndex) : StatesKept k (procWakeup k p) := by
  rw [procWakeup]
  split_ifs with hsleeping
  · refine ⟨rfl, fun i ↦ ?_, fun i h ↦ ?_, fun i code h ↦ ?_⟩
    · by_cases heq : i = p
      · rw [heq, Kernel.modify_procTable_self, hsleeping]
        exact iff_of_false ProcState.noConfusion ProcState.noConfusion
      · rw [Kernel.modify_procTable_of_ne _ _ heq]
    · by_cases heq : i = p
      · rw [heq, Kernel.modify_procTable_self]
      · rw [Kernel.modify_procTable_of_ne _ _ heq, h]
    · have hne : i ≠ p := by
        rintro rfl
        rw [Exited, hsleeping] at h
        cases h.1
      rw [Exited, Kernel.modify_procTable_of_ne _ _ hne]
      exact h
  · exact StatesKept.refl k

/-- The countdown touches no RUNNING, READY or exited process. -/
theorem statesKept_countdownAll (k : Kernel) : StatesKept k (countdownAll k) := by
  have hawake : ∀ process, process.state ≠ .sleeping → countdown process = process :=
    fun process h ↦ if_neg h
  have hrunning : ∀ process, (countdown process).state = .running ↔ process.state = .running := by
    intro process
    by_cases hsleeping : process.state = .sleeping
    · rw [hsleeping]
      simp only [countdown, if_pos hsleeping]
      split_ifs <;> simp [hsleeping]
    · rw [hawake process hsleeping]
  refine ⟨rfl, fun i ↦ hrunning _, fun i h ↦ ?_, fun i code h ↦ ?_⟩
  · have hsame := hawake (k.procTable i) (by rw [h]; exact ProcState.noConfusion)
    exact (congrArg Process.state hsame).trans h
  · have hsame := hawake (k.procTable i) (by rw [h.1]; exact ProcState.noConfusion)
    exact ⟨(congrArg Process.state hsame).trans h.1, (congrArg Process.exitCode hsame).trans h.2⟩

theorem statesKept_ipcSend (k : Kernel) (dst : Pid) (type : Word32) (data : Option (ℕ → Byte))
    (len : Word32) : StatesKept k (ipcSend k dst type data len).2 := by
  rcases ipcSend_cases k dst type data len with ⟨-, hreturn⟩ |
    ⟨target, -, ⟨-, hreturn⟩ | ⟨-, -, hreturn⟩ | ⟨-, m, -, hreturn⟩⟩
  · rw [hreturn]
    exact StatesKept.refl k
  · rw [hreturn]
    exact StatesKept.refl k
  · rw [hreturn]
    exact StatesKept.refl k
  · rw [hreturn]
    refine StatesKept.trans (StatesKept.of_eq ?_ ?_ ?_) (statesKept_procWakeup _ target)
    · exact (queuedState_frame k target m type data len).2.1
    · exact fun i ↦ state_queuedState ..
    · exact fun i ↦ queuedState_field k target i m type data len Process.exitCode (fun _ _ ↦ rfl)
        (fun _ _ ↦ rfl) fun _ _ ↦ rfl

theorem statesKept_dequeue (k : Kernel) (p : ProcIndex) (m : MsgIndex) (out : IpcMessage) :
    StatesKept k (dequeue k p m out).2 :=
  StatesKept.of_eq (dequeue_frame k p m out).2.2.1 (fun _ ↦ state_dequeue ..) fun i ↦
    dequeue_field k p i m out Process.exitCode (fun _ _ ↦ rfl) (fun _ _ ↦ rfl) fun _ _ ↦ rfl

theorem statesKept_procCreate (entryPoints : EntryPoints) (k : Kernel) (kstack : Word)
    (name : List Byte) (entry : Word) :
    StatesKept k (procCreate entryPoints kstack name entry k).2 := by
  rcases (procCreate_creates entryPoints kstack name entry k).added with hsame | ⟨p, hadded⟩
  · rw [hsame]
    exact StatesKept.refl k
  · exact statesKept_of_added hadded

theorem statesKept_procCreateElf (entryPoints : EntryPoints) (k : Kernel) (pages : ElfPages)
    (entry : Word) : StatesKept k (procCreateElf entryPoints pages entry k).2 := by
  rcases (procCreateElf_creates entryPoints pages entry k).added with hsame | ⟨p, hadded⟩
  · rw [hsame]
    exact StatesKept.refl k
  · exact statesKept_of_added hadded

/-! ### Steps that schedule -/

/-- Writes to the current process, when it is not idle, leave a state `schedule` may be entered
in. -/
theorem SchedulerEntry.modify (hentry : SchedulerEntry idle k current) (hne : current ≠ idle)
    (f : Process → Process) : SchedulerEntry idle (k.modify current f) current where
  current_eq := hentry.current_eq
  not_running i hi := by
    rw [Kernel.modify_procTable_of_ne _ _ hi]
    exact hentry.not_running i hi
  idle_runnable := by
    rw [Kernel.modify_procTable_of_ne _ _ hne.symm]
    exact hentry.idle_runnable

/-- The current process has not exited, so writes to it leave the exited processes alone. -/
theorem SchedulerInvariant.exited_modify (hinv : SchedulerInvariant idle k current)
    (f : Process → Process) {i : ProcIndex} {code : Int32} (hexited : Exited k i code) :
    Exited (k.modify current f) i code := by
  have hne : i ≠ current := by
    rintro rfl
    have hrunning := (hinv.running_iff i).mpr rfl
    rw [hexited.1] at hrunning
    cases hrunning
  rw [Exited, Kernel.modify_procTable_of_ne _ _ hne]
  exact hexited

theorem procSleep_eq (hcurrent : k.currentProc = some current) (ms : Word) :
    procSleep k ms = schedule (k.modify current fun process ↦
      { process with sleepTicks := sleepTicksOf ms, state := .sleeping }) := by
  rw [procSleep, hcurrent]

theorem procExit_eq (hcurrent : k.currentProc = some current) (code : Int32) :
    procExit k code = schedule (k.modify current fun process ↦
      { process with state := .zombie, exitCode := code }) := by
  rw [procExit, hcurrent]

/-- What one step keeps: the invariant, and every exited process. -/
structure StepKeeps (idle : ProcIndex) (k next : Kernel) : Prop where
  invariant : ∃ current, SchedulerInvariant idle next current
  exited : ∀ i code, Exited k i code → Exited next i code

theorem SchedulerInvariant.stepKeeps (hinv : SchedulerInvariant idle k current)
    (hkept : StatesKept k next) : StepKeeps idle k next :=
  ⟨⟨current, hinv.kept hkept⟩, hkept.exited⟩

/-- `schedule` entered after writes that keep the exited processes. -/
theorem SchedulerEntry.stepKeeps (hentry : SchedulerEntry idle next current)
    (hexited : ∀ i code, Exited k i code → Exited next i code) :
    StepKeeps idle k (schedule next).1 := by
  obtain ⟨p, -, -, hinv⟩ := schedule_dispatches hentry
  exact ⟨⟨p, hinv⟩, fun i code h ↦ exited_schedule (hexited i code h)⟩

theorem SchedulerInvariant.timer (hinv : SchedulerInvariant idle k current) :
    StepKeeps idle k (timerInterrupt k).1 := by
  have hclock : StatesKept k { k with ticks := k.ticks + 1#64 } :=
    StatesKept.of_eq rfl (fun _ ↦ rfl) fun _ ↦ rfl
  have hcounted := hclock.trans (statesKept_countdownAll _)
  rw [timerInterrupt, schedTick]
  split_ifs
  · exact (hinv.kept hcounted).entry.stepKeeps hcounted.exited
  · exact hinv.stepKeeps hcounted

theorem SchedulerInvariant.sleep (hinv : SchedulerInvariant idle k current)
    (hne : current ≠ idle) (ms : Word) : StepKeeps idle k (procSleep k ms).1 := by
  rw [procSleep_eq hinv.current_eq]
  exact (hinv.entry.modify hne _).stepKeeps fun _ _ ↦ hinv.exited_modify _

theorem SchedulerInvariant.exit (hinv : SchedulerInvariant idle k current)
    (hne : current ≠ idle) (code : Int32) : StepKeeps idle k (procExit k code).1 := by
  rw [procExit_eq hinv.current_eq]
  exact (hinv.entry.modify hne _).stepKeeps fun _ _ ↦ hinv.exited_modify _

/-- One step of a run. -/
theorem SchedulerInvariant.step {entryPoints : EntryPoints} {event : SchedulerEvent}
    (hinv : SchedulerInvariant idle k current)
    (hstep : (schedulerSystem entryPoints idle).step k event next) : StepKeeps idle k next := by
  have hnotIdle : k.currentProc ≠ some idle → current ≠ idle := by
    rintro h rfl
    exact h hinv.current_eq
  cases event with
  | call call =>
    obtain ⟨hcaller, rfl⟩ := hstep
    cases call with
    | timer => exact hinv.timer
    | yield => exact hinv.entry.stepKeeps fun _ _ h ↦ h
    | sleep ms => exact hinv.sleep (hnotIdle (hcaller.resolve_left nofun)) ms
    | exit code => exact hinv.exit (hnotIdle (hcaller.resolve_left nofun)) code
    | create kstack name entry => exact hinv.stepKeeps (statesKept_procCreate ..)
    | createElf pages entry => exact hinv.stepKeeps (statesKept_procCreateElf ..)
  | send dst type data len =>
    obtain ⟨-, rfl⟩ := hstep
    exact hinv.stepKeeps (statesKept_ipcSend ..)
  | recv out =>
    obtain ⟨hcaller, rfl⟩ := hstep
    cases hpass : ipcRecv k out with
    | returned result message after =>
      rcases ipcRecv_returned_cases hpass with ⟨-, rfl⟩ | ⟨p, m, buffer, -, -, -, -, -, rfl⟩
      · exact hinv.stepKeeps (StatesKept.refl _)
      · exact hinv.stepKeeps (statesKept_dequeue k p m buffer)
    | slept after switch =>
      have hsleep := hinv.sleep (hnotIdle hcaller) 10#64
      rwa [ipcRecv_slept hpass] at hsleep

/-! ### Runs -/

/-- The state `kernel_main` reaches. -/
theorem SchedulerInvariant.start {entryPoints : EntryPoints}
    (hstart : (schedulerSystem entryPoints idle).start k) : SchedulerInvariant idle k idle := by
  obtain ⟨procIdle, idleStack, shell, hmain⟩ := hstart
  obtain ⟨first, second, hfirst, hsecond, hready, rfl⟩ := kernelMain_cases hmain
  have hnone : ∀ i, (first.procTable i).state ≠ .running := by
    intro i
    rw [ne_eq, (statesKept_of_added hfirst).running_iff]
    exact ProcState.noConfusion
  have hstopped : ∀ i, (second.procTable i).state ≠ .running := by
    intro i
    rcases hsecond with rfl | ⟨p, hadded⟩
    · exact hnone i
    · rw [ne_eq, (statesKept_of_added hadded).running_iff]
      exact hnone i
  have hidle : ((startScheduler second idle).procTable idle).state = .running :=
    congrArg Process.state (Kernel.modify_procTable_self ..)
  refine ⟨rfl, fun i ↦ ?_, Or.inr hidle⟩
  by_cases heq : i = idle
  · rw [heq]
    exact iff_of_true hidle rfl
  · rw [startScheduler, Kernel.modify_procTable_of_ne _ _ heq]
    exact iff_of_false (hstopped i) heq

/-- The run lemma. -/
theorem SchedulerInvariant.of_run {entryPoints : EntryPoints} {events : List SchedulerEvent}
    (hrun : (schedulerSystem entryPoints idle).Run events k) :
    ∃ current, SchedulerInvariant idle k current := by
  refine hrun.invariant (motive := fun k ↦ ∃ current, SchedulerInvariant idle k current) ?_ ?_
  · exact fun k hstart ↦ ⟨idle, SchedulerInvariant.start hstart⟩
  · rintro k event next ⟨current, hinv⟩ hstep
    exact (hinv.step hstep).invariant

/-- An exited process stays exited along every path, and is never current. -/
theorem SchedulerInvariant.exited_path {entryPoints : EntryPoints} {later : List SchedulerEvent}
    {i : ProcIndex} {code : Int32} (hinv : SchedulerInvariant idle k current)
    (hexited : Exited k i code)
    (hpath : (schedulerSystem entryPoints idle).Path k later next) :
    Exited next i code ∧ next.currentProc ≠ some i := by
  have hkept : (∃ current, SchedulerInvariant idle next current) ∧ Exited next i code := by
    refine hpath.preserves (motive := fun k ↦
      (∃ current, SchedulerInvariant idle k current) ∧ Exited k i code) ?_ ⟨⟨_, hinv⟩, hexited⟩
    rintro k event next ⟨⟨current, hinv⟩, hexited⟩ hstep
    have hkeeps := hinv.step hstep
    exact ⟨hkeeps.invariant, hkeeps.exited i code hexited⟩
  obtain ⟨⟨current, hinv⟩, hexited⟩ := hkept
  refine ⟨hexited, fun hcurrent ↦ ?_⟩
  rw [hinv.current_eq, Option.some.injEq] at hcurrent
  have hrunning := (hinv.running_iff i).mpr hcurrent.symm
  rw [hexited.1] at hrunning
  cases hrunning

/-- What holds of the scheduler in a reachable state. -/
structure SchedulerCorrect (idle : ProcIndex) (k : Kernel) : Prop where
  /-- The current process is the one RUNNING entry. -/
  running : ∃ current, k.currentProc = some current ∧
    ∀ i, (k.procTable i).state = .running ↔ i = current
  idle_runnable : (k.procTable idle).state = .ready ∨ (k.procTable idle).state = .running
  /-- A process that goes to sleep or exits is left for another. -/
  sleep_switches : ∀ current ms, k.currentProc = some current → current ≠ idle →
    ∃ p, p ≠ current ∧ (procSleep k ms).2 = some ⟨current, p⟩
  exit_switches : ∀ current code, k.currentProc = some current → current ≠ idle →
    Exited (procExit k code).1 current code ∧
      ∃ p, p ≠ current ∧ (procExit k code).2 = some ⟨current, p⟩
  /-- A timer interrupt and a yield enter `schedule` with the current process RUNNING. -/
  timer_running : ∀ current, k.currentProc = some current →
    ((countdownAll { k with ticks := k.ticks + 1#64 }).procTable current).state = .running
  yield_switches : ∀ current, k.currentProc = some current →
    ∃ p, (procYield k).2 = some ⟨current, p⟩

theorem SchedulerInvariant.correct (hinv : SchedulerInvariant idle k current) :
    SchedulerCorrect idle k := by
  have hcurrent : ∀ i, k.currentProc = some i → i = current := by
    intro i hi
    rw [hinv.current_eq] at hi
    exact (Option.some.inj hi).symm
  refine ⟨⟨current, hinv.current_eq, hinv.running_iff⟩, hinv.idle_runnable, ?_, ?_, ?_, ?_⟩
  · intro i ms hi hne
    obtain rfl := hcurrent i hi
    rw [procSleep_eq hinv.current_eq]
    refine schedule_leaves (hinv.entry.modify hne _) ?_ ?_
    · rw [Kernel.modify_procTable_self]
      exact ProcState.noConfusion
    · rw [Kernel.modify_procTable_self]
      exact ProcState.noConfusion
  · intro i code hi hne
    obtain rfl := hcurrent i hi
    rw [procExit_eq hinv.current_eq]
    refine ⟨exited_schedule ?_, schedule_leaves (hinv.entry.modify hne _) ?_ ?_⟩
    · rw [Exited, Kernel.modify_procTable_self]
      exact ⟨rfl, rfl⟩
    · rw [Kernel.modify_procTable_self]
      exact ProcState.noConfusion
    · rw [Kernel.modify_procTable_self]
      exact ProcState.noConfusion
  · intro i hi
    rw [(statesKept_countdownAll _).running_iff, hcurrent i hi]
    exact (hinv.running_iff current).mpr rfl
  · intro i hi
    obtain rfl := hcurrent i hi
    obtain ⟨p, hschedule, -, -⟩ := schedule_dispatches hinv.entry
    exact ⟨p, by rw [procYield, hschedule]⟩

/-- The scheduler is correct along every run from `kernel_main`, and a process that has exited in a
state of the run stays exited and is never current again. -/
theorem scheduler_run_correct {entryPoints : EntryPoints} {events : List SchedulerEvent}
    (hrun : (schedulerSystem entryPoints idle).Run events k) :
    SchedulerCorrect idle k ∧
      ∀ i code, Exited k i code → ∀ later next,
        (schedulerSystem entryPoints idle).Path k later next →
          Exited next i code ∧ next.currentProc ≠ some i := by
  obtain ⟨current, hinv⟩ := SchedulerInvariant.of_run hrun
  exact ⟨hinv.correct, fun i code hexited later next hpath ↦ hinv.exited_path hexited hpath⟩

/-- The shell, dispatched at the tenth timer interrupt, exits with code 7. -/
theorem scheduler_run_correct_exit : ∃ k : Kernel, Exited k 1 7 ∧ SchedulerCorrect 0 k ∧
    ∀ later next, (schedulerSystem ⟨1#64, 2#64⟩ 0).Path k later next →
      Exited next 1 7 ∧ next.currentProc ≠ some 1 := by
  obtain ⟨k, hmain, hshell, hexited⟩ : ∃ k,
      kernelMain ⟨1#64, 2#64⟩ 3#64 0xFFFF900000000018#64
          (some (⟨0x300000#64, 0x302000#64⟩, 0x400000#64)) = some (0, k) ∧
        ((fun k ↦ (timerInterrupt k).1)^[10] k).currentProc ≠ some 0 ∧
        Exited (procExit ((fun k ↦ (timerInterrupt k).1)^[10] k) 7).1 1 7 :=
    ⟨_, rfl, by decide, by decide, by decide⟩
  have hticks : ∀ n, (schedulerSystem ⟨1#64, 2#64⟩ 0).Run
      (List.replicate n (.call .timer)) ((fun k ↦ (timerInterrupt k).1)^[n] k) := by
    intro n
    induction n with
    | zero => exact TransitionSystem.Run.start ⟨3#64, 0xFFFF900000000018#64, _, hmain⟩
    | succ n ih =>
      rw [Function.iterate_succ_apply', List.replicate_succ']
      exact ih.step ⟨Or.inl rfl, rfl⟩
  have hexit : (schedulerSystem ⟨1#64, 2#64⟩ 0).step ((fun k ↦ (timerInterrupt k).1)^[10] k)
      (.call (.exit 7)) (procExit ((fun k ↦ (timerInterrupt k).1)^[10] k) 7).1 :=
    ⟨Or.inr hshell, rfl⟩
  obtain ⟨hcorrect, hforever⟩ := scheduler_run_correct ((hticks 10).step hexit)
  exact ⟨_, hexited, hcorrect, hforever 1 7 hexited⟩

end Colix.Proc
