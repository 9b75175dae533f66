import Colix.Proc.SchedulerRun

/-!
# The length of a sleep

`proc_sleep(ms)` computes `ms * PIT_HZ / 1000` in 64 bits, and `sched_tick` counts it down. Whatever
the other processes do, a sleeping process that nobody sends to stays asleep until the count is used
up (`asleep_of_run`). The count is the one asked for exactly when the product does not wrap
(`toNat_sleepTicksOf_eq_iff`), and so is the sleep: `sleepsAsAsked_iff`.
-/

set_option autoImplicit false
set_option relaxedAutoImplicit false

namespace Colix.Proc

open Foundation Ipc

/-! ### The count -/

/-- The ticks that a sleep of `ms` milliseconds asks for. -/
def askedTicks (ms : Word) : ℕ :=
  max 1 (ms.toNat * pitHz.toNat / 1000)

section Count

variable {ms : Word}

/-- The count of `proc_sleep`, with the product wrapped. -/
theorem toNat_sleepTicksOf (ms : Word) :
    (sleepTicksOf ms).toNat = max 1 (ms.toNat * pitHz.toNat % 2 ^ 64 / 1000) := by
  have hquotient : (ms * pitHz / 1000#64).toNat = ms.toNat * pitHz.toNat % 2 ^ 64 / 1000 := by
    rw [BitVec.toNat_udiv, BitVec.toNat_mul]
    rfl
  rw [sleepTicksOf]
  split_ifs with hzero
  · have hnone := congrArg BitVec.toNat hzero
    rw [hquotient] at hnone
    rw [hnone]
    rfl
  · have hsome : (ms * pitHz / 1000#64).toNat ≠ 0 := fun h ↦ hzero (BitVec.eq_of_toNat_eq h)
    rw [hquotient] at hsome ⊢
    omega

theorem sleepTicksOf_pos (ms : Word) : 0 < (sleepTicksOf ms).toNat := by
  rw [toNat_sleepTicksOf]
  omega

/-- The count is never longer than asked. -/
theorem toNat_sleepTicksOf_le (ms : Word) : (sleepTicksOf ms).toNat ≤ askedTicks ms := by
  rw [toNat_sleepTicksOf, askedTicks]
  have hwrapped := Nat.mod_le (ms.toNat * pitHz.toNat) (2 ^ 64)
  omega

/-- It is what was asked for exactly when the product does not wrap. -/
theorem toNat_sleepTicksOf_eq_iff :
    (sleepTicksOf ms).toNat = askedTicks ms ↔ ms.toNat * pitHz.toNat < 2 ^ 64 := by
  rw [toNat_sleepTicksOf, askedTicks]
  constructor
  · intro hsame
    by_contra hwrap
    have hwrapped := Nat.mod_lt (ms.toNat * pitHz.toNat) (show 0 < 2 ^ 64 by decide)
    omega
  · intro hfits
    rw [Nat.mod_eq_of_lt hfits]

end Count

/-! ### Runs -/

/-- The event is an `ipc_send` whose destination is the process. -/
def SendsTo (p : ProcIndex) (k : Kernel) : SchedulerEvent → Prop
  | .send dst _ _ _ => procFind k dst = some p
  | _ => False

/-- The event is a timer interrupt, with its call of `sched_tick`. -/
def SchedulerEvent.isTick : SchedulerEvent → Bool
  | .call .timer => true
  | _ => false

/-- The calls of `sched_tick` in a history. -/
def tickCount (events : List SchedulerEvent) : ℕ :=
  events.countP SchedulerEvent.isTick

/-- The runs on from a state in which nobody sends to the process. -/
def sleepSystem (entryPoints : EntryPoints) (idle p : ProcIndex) (slept : Kernel) :
    TransitionSystem Kernel SchedulerEvent where
  start k := k = slept
  step k event next := ¬ SendsTo p k event ∧ (schedulerSystem entryPoints idle).step k event next

/-- After `proc_sleep(ms)` by the process: it is SLEEPING through one `sched_tick` less than asked
for, and the next one makes it READY, whereupon `sched_tick` may dispatch it. -/
structure SleepsAsAsked (entryPoints : EntryPoints) (idle p : ProcIndex) (k : Kernel) (ms : Word) :
    Prop where
  sleeping : ∀ events next, (sleepSystem entryPoints idle p (procSleep k ms).1).Run events next →
    tickCount events < askedTicks ms → (next.procTable p).state = .sleeping
  wakes : ∀ events s, (sleepSystem entryPoints idle p (procSleep k ms).1).Run events s →
    tickCount events + 1 = askedTicks ms →
      ((countdownAll { s with ticks := s.ticks + 1#64 }).procTable p).state = .ready ∧
        (((timerInterrupt s).1.procTable p).state = .ready ∨
          (timerInterrupt s).1.currentProc = some p ∧
            ((timerInterrupt s).1.procTable p).state = .running)

/-! ### A sleeping process -/

/-- The process is SLEEPING, with a count of ticks left. -/
def Asleep (k : Kernel) (p : ProcIndex) (count : ℕ) : Prop :=
  (k.procTable p).state = .sleeping ∧ (k.procTable p).sleepTicks.toNat = count

section Asleep

variable {k next : Kernel} {idle current p : ProcIndex} {count : ℕ}

theorem Asleep.of_eq (hasleep : Asleep k p count) (hsame : next.procTable p = k.procTable p) :
    Asleep next p count := by
  rw [Asleep, hsame]
  exact hasleep

/-- A sleeping process is not the current one. -/
theorem Asleep.ne_current (hasleep : Asleep k p count)
    (hinv : SchedulerInvariant idle k current) : p ≠ current := by
  rintro rfl
  have hrunning := (hinv.running_iff p).mpr rfl
  rw [hasleep.1] at hrunning
  cases hrunning

/-- `schedule` neither requeues nor dispatches a sleeping process. -/
theorem Asleep.schedule (hasleep : Asleep k p count) : Asleep (schedule k).1 p count := by
  refine ⟨?_, ?_⟩
  · cases hcurrent : k.currentProc with
    | none =>
      rw [Proc.schedule, hcurrent]
      exact hasleep.1
    | some old =>
      rcases schedule_cases hcurrent with ⟨chosen, hfind, hdispatch⟩ | ⟨-, -, hsame⟩
      · have hready := state_of_nextReady hfind
        have hrequeue : ((requeue k old).procTable p).state = .sleeping := by
          rw [requeue_state, if_neg]
          · exact hasleep.1
          · rintro ⟨rfl, hrunning⟩
            rw [hasleep.1] at hrunning
            cases hrunning
        have hne : p ≠ chosen := by
          rintro rfl
          rw [hrequeue] at hready
          cases hready
        rw [hdispatch, dispatch_state, if_neg hne]
        exact hrequeue
      · rw [hsame]
        exact hasleep.1
  · rw [← hasleep.2]
    exact congrArg BitVec.toNat
      (schedule_field Process.sleepTicks (fun _ _ ↦ rfl) (fun _ _ ↦ rfl) k p)

/-- A call that marks the current process and schedules leaves other sleepers alone. -/
theorem Asleep.modify_schedule (hasleep : Asleep k p count) (hne : p ≠ current)
    (f : Process → Process) : Asleep (Proc.schedule (k.modify current f)).1 p count :=
  (hasleep.of_eq (Kernel.modify_procTable_of_ne k f hne)).schedule

/-- The countdown takes one tick. -/
theorem Asleep.countdownAll (hasleep : Asleep k p (count + 2)) :
    Asleep (countdownAll k) p (count + 1) := by
  obtain ⟨hstate, hticks⟩ := hasleep
  have hpositive : 0#64 < (k.procTable p).sleepTicks := by
    rw [BitVec.lt_def, hticks]
    exact Nat.succ_pos _
  have hless : ((k.procTable p).sleepTicks - 1#64).toNat = count + 1 := by
    rw [BitVec.toNat_sub_of_le (BitVec.le_def.mpr (by rw [hticks]; simp)), hticks]
    rfl
  have hmore : (k.procTable p).sleepTicks - 1#64 ≠ 0#64 := by
    intro hzero
    rw [hzero] at hless
    exact absurd hless (Nat.succ_ne_zero count).symm
  have hcounted : (Proc.countdownAll k).procTable p =
      { k.procTable p with sleepTicks := (k.procTable p).sleepTicks - 1#64 } := by
    simp only [Proc.countdownAll, countdown, if_pos hstate, if_pos hpositive, if_neg hmore]
  refine ⟨?_, ?_⟩
  · rw [hcounted]
    exact hstate
  · rw [hcounted]
    exact hless

/-- The countdown of the last tick makes the process READY. -/
theorem Asleep.ready_countdownAll (hasleep : Asleep k p 1) :
    ((Proc.countdownAll k).procTable p).state = .ready := by
  obtain ⟨hstate, hticks⟩ := hasleep
  have hone : (k.procTable p).sleepTicks = 1#64 := BitVec.eq_of_toNat_eq hticks
  simp only [Proc.countdownAll, countdown, if_pos hstate, hone,
    if_pos (show 0#64 < 1#64 by decide), if_pos (show (1#64 : Word) - 1#64 = 0#64 by decide)]

/-- A READY process is READY after `schedule`, or dispatched. -/
theorem ready_or_dispatched (hready : (k.procTable p).state = .ready) :
    ((schedule k).1.procTable p).state = .ready ∨ (schedule k).1.currentProc = some p ∧
      ((schedule k).1.procTable p).state = .running := by
  cases hcurrent : k.currentProc with
  | none =>
    rw [schedule, hcurrent]
    exact Or.inl hready
  | some old =>
    rcases schedule_cases hcurrent with ⟨chosen, -, hdispatch⟩ | ⟨hnone, -, -⟩
    · rw [hdispatch, dispatch_state, dispatch_currentProc]
      by_cases hchosen : p = chosen
      · rw [if_pos hchosen, hchosen]
        exact Or.inr ⟨rfl, rfl⟩
      · rw [if_neg hchosen, requeue_state]
        split_ifs
        · exact Or.inl rfl
        · exact Or.inl hready
    · exact absurd hready (hnone p)

/-- A tick before the last. -/
theorem Asleep.timer (hasleep : Asleep k p (count + 2)) :
    Asleep (timerInterrupt k).1 p (count + 1) := by
  have hclock : Asleep { k with ticks := k.ticks + 1#64 } p (count + 2) := hasleep
  rw [timerInterrupt, schedTick]
  split_ifs
  · exact hclock.countdownAll.schedule
  · exact hclock.countdownAll

/-- The last tick. -/
theorem Asleep.wakes (hasleep : Asleep k p 1) :
    ((Proc.countdownAll { k with ticks := k.ticks + 1#64 }).procTable p).state = .ready ∧
      (((timerInterrupt k).1.procTable p).state = .ready ∨
        (timerInterrupt k).1.currentProc = some p ∧
          ((timerInterrupt k).1.procTable p).state = .running) := by
  have hclock : Asleep { k with ticks := k.ticks + 1#64 } p 1 := hasleep
  refine ⟨hclock.ready_countdownAll, ?_⟩
  rw [timerInterrupt, schedTick]
  split_ifs
  · exact ready_or_dispatched hclock.ready_countdownAll
  · exact Or.inl hclock.ready_countdownAll

/-- A new process is put into an unused entry. -/
theorem Asleep.added {q : ProcIndex} (hasleep : Asleep k p count) (hadded : ProcessAdded k next q) :
    Asleep next p count := by
  refine hasleep.of_eq (hadded.procTable_of_ne p ?_)
  rintro rfl
  have hunused := hadded.unused_before
  rw [hasleep.1] at hunused
  cases hunused

/-- A send to another process. -/
theorem Asleep.ipcSend {dst : Pid} {type : Word32} {data : Option (ℕ → Byte)} {len : Word32}
    (hasleep : Asleep k p count) (hother : procFind k dst ≠ some p) :
    Asleep (ipcSend k dst type data len).2 p count := by
  rcases ipcSend_cases k dst type data len with ⟨-, hreturn⟩ |
    ⟨target, hfind, ⟨-, hreturn⟩ | ⟨-, -, hreturn⟩ | ⟨-, m, -, hreturn⟩⟩
  · rw [hreturn]
    exact hasleep
  · rw [hreturn]
    exact hasleep
  · rw [hreturn]
    exact hasleep
  · rw [hreturn]
    have hne : p ≠ target := by
      rintro rfl
      exact hother hfind
    have hqueued : Asleep (queuedState k target m type data len) p count := by
      refine ⟨(state_queuedState k target p m type data len).trans hasleep.1, ?_⟩
      exact (congrArg BitVec.toNat (queuedState_field k target p m type data len
        Process.sleepTicks (fun _ _ ↦ rfl) (fun _ _ ↦ rfl) fun _ _ ↦ rfl)).trans hasleep.2
    change Asleep (procWakeup (queuedState k target m type data len) target) p count
    rw [procWakeup]
    split_ifs
    · exact hqueued.of_eq (Kernel.modify_procTable_of_ne _ _ hne)
    · exact hqueued

/-- A pass of a receive by the current process. -/
theorem Asleep.ipcRecv (hasleep : Asleep k p count) (hinv : SchedulerInvariant idle k current)
    (out : Option IpcMessage) : Asleep (ipcRecv k out).kernel p count := by
  have hne := hasleep.ne_current hinv
  cases hpass : Ipc.ipcRecv k out with
  | returned result message after =>
    rcases ipcRecv_returned_cases hpass with ⟨-, rfl⟩ | ⟨q, m, buffer, -, -, -, -, -, rfl⟩
    · exact hasleep
    · refine ⟨(state_dequeue k q p m buffer).trans hasleep.1, ?_⟩
      exact (congrArg BitVec.toNat (dequeue_field k q p m buffer Process.sleepTicks
        (fun _ _ ↦ rfl) (fun _ _ ↦ rfl) fun _ _ ↦ rfl)).trans hasleep.2
  | slept after switch =>
    have hslept := hasleep.modify_schedule hne fun process ↦
      { process with sleepTicks := sleepTicksOf 10#64, state := .sleeping }
    rw [← procSleep_eq hinv.current_eq, ipcRecv_slept hpass] at hslept
    exact hslept

/-- A step that is neither a tick nor a send to the process leaves it asleep, with its count. -/
theorem Asleep.step {entryPoints : EntryPoints} {slept : Kernel} {event : SchedulerEvent}
    (hasleep : Asleep k p count) (hinv : SchedulerInvariant idle k current)
    (hstep : (sleepSystem entryPoints idle p slept).step k event next)
    (hnoTick : event.isTick = false) : Asleep next p count := by
  have hne := hasleep.ne_current hinv
  obtain ⟨hother, hstep⟩ := hstep
  cases event with
  | call call =>
    obtain ⟨-, rfl⟩ := hstep
    cases call with
    | timer => cases hnoTick
    | yield => exact hasleep.schedule
    | sleep ms =>
      rw [KernelCall.perform, procSleep_eq hinv.current_eq]
      exact hasleep.modify_schedule hne _
    | exit code =>
      rw [KernelCall.perform, procExit_eq hinv.current_eq]
      exact hasleep.modify_schedule hne _
    | create kstack name entry =>
      rw [KernelCall.perform]
      rcases (procCreate_creates entryPoints kstack name entry k).added with hsame | ⟨q, hadded⟩
      · exact hasleep.of_eq (congrArg (Kernel.procTable · p) hsame)
      · exact hasleep.added hadded
    | createElf pages entry =>
      rw [KernelCall.perform]
      rcases (procCreateElf_creates entryPoints pages entry k).added with hsame | ⟨q, hadded⟩
      · exact hasleep.of_eq (congrArg (Kernel.procTable · p) hsame)
      · exact hasleep.added hadded
  | send dst type data len =>
    obtain ⟨-, rfl⟩ := hstep
    exact hasleep.ipcSend hother
  | recv out =>
    obtain ⟨-, rfl⟩ := hstep
    exact hasleep.ipcRecv hinv out

end Asleep

/-! ### The sleep -/

section Sleep

variable {entryPoints : EntryPoints} {k next : Kernel} {idle p : ProcIndex} {ms : Word}
  {events before : List SchedulerEvent}

/-- What a run after `proc_sleep` keeps: the scheduler's invariant, and the process asleep with what
is left of its count. -/
structure SleepInvariant (idle p : ProcIndex) (total : ℕ) (events : List SchedulerEvent)
    (k : Kernel) : Prop where
  scheduler : ∃ current, SchedulerInvariant idle k current
  asleep : tickCount events < total → Asleep k p (total - tickCount events)

theorem tickCount_append (events : List SchedulerEvent) (event : SchedulerEvent) :
    tickCount (events ++ [event]) = tickCount events + if event.isTick then 1 else 0 := by
  rw [tickCount, List.countP_append, List.countP_singleton, tickCount]

/-- The state in which the process has called `proc_sleep`. -/
theorem sleepInvariant_start {current : ProcIndex} (hinv : SchedulerInvariant idle k current)
    (hne : current ≠ idle) (ms : Word) :
    SleepInvariant idle current (sleepTicksOf ms).toNat [] (procSleep k ms).1 := by
  refine ⟨(hinv.sleep hne ms).invariant, fun _ ↦ ?_⟩
  rw [procSleep_eq hinv.current_eq]
  refine Asleep.schedule ?_
  rw [Asleep, Kernel.modify_procTable_self]
  exact ⟨rfl, rfl⟩

/-- One step of a run after `proc_sleep`. -/
theorem SleepInvariant.step {total : ℕ} {event : SchedulerEvent} {slept : Kernel}
    (hinv : SleepInvariant idle p total events k)
    (hstep : (sleepSystem entryPoints idle p slept).step k event next) :
    SleepInvariant idle p total (events ++ [event]) next := by
  obtain ⟨⟨current, hscheduler⟩, hasleep⟩ := hinv
  refine ⟨(hscheduler.step hstep.2).invariant, fun hmore ↦ ?_⟩
  rw [tickCount_append] at hmore ⊢
  cases htick : event.isTick with
  | false =>
    rw [htick] at hmore
    exact (hasleep hmore).step hscheduler hstep htick
  | true =>
    rw [htick] at hmore
    obtain rfl : event = .call .timer := by
      cases event with
      | call call => cases call <;> first | rfl | cases htick
      | send dst type data len => cases htick
      | recv out => cases htick
    obtain ⟨-, -, rfl⟩ := hstep
    have hmore : tickCount events + 1 < total := hmore
    have hcount : total - tickCount events = total - (tickCount events + 1) - 1 + 2 := by omega
    have hbefore := hasleep (by omega)
    rw [hcount] at hbefore
    have hafter := hbefore.timer
    rw [show total - (tickCount events + 1) - 1 + 1 = total - (tickCount events + 1) by omega]
      at hafter
    exact hafter

/-- The run lemma. -/
theorem sleepInvariant_run {current : ProcIndex} (hinv : SchedulerInvariant idle k current)
    (hne : current ≠ idle)
    (hrun : (sleepSystem entryPoints idle current (procSleep k ms).1).Run events next) :
    SleepInvariant idle current (sleepTicksOf ms).toNat events next := by
  refine hrun.history_invariant (motive := fun events k ↦
    SleepInvariant idle current (sleepTicksOf ms).toNat events k) ?_ ?_
  · rintro k rfl
    exact sleepInvariant_start hinv hne ms
  · exact fun events k event next hkept hstep ↦ hkept.step hstep

/-- Timer interrupts alone are a run. -/
theorem exists_tickRun (entryPoints : EntryPoints) (idle p : ProcIndex) (slept : Kernel) (n : ℕ) :
    ∃ events last, (sleepSystem entryPoints idle p slept).Run events last ∧
      tickCount events = n := by
  induction n with
  | zero => exact ⟨[], slept, TransitionSystem.Run.start rfl, rfl⟩
  | succ n ih =>
    obtain ⟨events, last, hrun, hcount⟩ := ih
    refine ⟨_, _, hrun.step (⟨id, Or.inl rfl, rfl⟩ :
      (sleepSystem entryPoints idle p slept).step last (.call .timer) _), ?_⟩
    rw [tickCount_append, hcount]
    rfl

/-- A run that uses up the count wakes the process, whatever was asked. -/
theorem not_sleepsAsAsked_of_lt {current : ProcIndex} (hinv : SchedulerInvariant idle k current)
    (hne : current ≠ idle) (hshort : (sleepTicksOf ms).toNat < askedTicks ms) :
    ¬ SleepsAsAsked entryPoints idle current k ms := by
  intro hsleeps
  have hpositive := sleepTicksOf_pos ms
  obtain ⟨events, last, hrun, hcount⟩ := exists_tickRun entryPoints idle current
    (procSleep k ms).1 ((sleepTicksOf ms).toNat - 1)
  have hlast := (sleepInvariant_run hinv hne hrun).asleep (by omega)
  rw [hcount, show (sleepTicksOf ms).toNat - ((sleepTicksOf ms).toNat - 1) = 1 by omega] at hlast
  have hstep : (sleepSystem entryPoints idle current (procSleep k ms).1).step last (.call .timer)
      (timerInterrupt last).1 := ⟨id, Or.inl rfl, rfl⟩
  have hstill := hsleeps.sleeping _ _ (hrun.step hstep) (by
    rw [tickCount_append, hcount]
    change (sleepTicksOf ms).toNat - 1 + 1 < askedTicks ms
    omega)
  rcases hlast.wakes.2 with hready | ⟨-, hrunning⟩
  · rw [hready] at hstill
    cases hstill
  · rw [hrunning] at hstill
    cases hstill

/-- In every run from `kernel_main`, the sleep of a process that calls `proc_sleep(ms)` has the
length asked for exactly when `ms * PIT_HZ` does not wrap. Assumes: the process is not idle, which
makes no calls. -/
theorem sleepsAsAsked_iff (hrun : (schedulerSystem entryPoints idle).Run before k)
    (hcurrent : k.currentProc = some p) (hne : p ≠ idle) (ms : Word) :
    SleepsAsAsked entryPoints idle p k ms ↔ ms.toNat * pitHz.toNat < 2 ^ 64 := by
  obtain ⟨current, hinv⟩ := SchedulerInvariant.of_run hrun
  obtain rfl : current = p := Option.some.inj (hinv.current_eq.symm.trans hcurrent)
  constructor
  · intro hsleeps
    by_contra hwrap
    have hle := toNat_sleepTicksOf_le ms
    have hdifferent : (sleepTicksOf ms).toNat ≠ askedTicks ms :=
      fun hsame ↦ hwrap (toNat_sleepTicksOf_eq_iff.mp hsame)
    exact not_sleepsAsAsked_of_lt hinv hne (by omega) hsleeps
  · intro hfits
    have htotal := toNat_sleepTicksOf_eq_iff.mpr hfits
    refine ⟨fun events next hafter hcount ↦ ?_, fun events s hafter hcount ↦ ?_⟩
    · exact ((sleepInvariant_run hinv hne hafter).asleep (by omega)).1
    · have hlast := (sleepInvariant_run hinv hne hafter).asleep (by omega)
      rw [show (sleepTicksOf ms).toNat - tickCount events = 1 by omega] at hlast
      exact hlast.wakes

end Sleep

/-! ### The shell calls -/

/-- The shell is dispatched at the tenth timer interrupt. -/
theorem exists_shellRun : ∃ (k : Kernel) (events : List SchedulerEvent),
    (schedulerSystem ⟨1#64, 2#64⟩ 0).Run events k ∧ k.currentProc = some 1 := by
  obtain ⟨k, hmain, hshell⟩ : ∃ k,
      kernelMain ⟨1#64, 2#64⟩ 3#64 0xFFFF900000000018#64
          (some (⟨0x300000#64, 0x302000#64⟩, 0x400000#64)) = some (0, k) ∧
        ((fun k ↦ (timerInterrupt k).1)^[10] k).currentProc = some 1 :=
    ⟨_, rfl, by decide⟩
  have hticks : ∀ n, (schedulerSystem ⟨1#64, 2#64⟩ 0).Run
      (List.replicate n (.call .timer)) ((fun k ↦ (timerInterrupt k).1)^[n] k) := by
    intro n
    induction n with
    | zero => exact TransitionSystem.Run.start ⟨3#64, 0xFFFF900000000018#64, _, hmain⟩
    | succ n ih =>
      rw [Function.iterate_succ_apply', List.replicate_succ']
      exact ih.step ⟨Or.inl rfl, rfl⟩
  exact ⟨_, _, hticks 10, hshell⟩

/-- With 184467440737095517 milliseconds the product wraps to 84: the sleep lasts one tick, where
18446744073709551 were asked for. -/
theorem sleep_not_as_asked : sleepTicksOf 184467440737095517#64 = 1#64 ∧
    askedTicks 184467440737095517#64 = 18446744073709551 ∧
      ∃ (k : Kernel) (events : List SchedulerEvent),
        (schedulerSystem ⟨1#64, 2#64⟩ 0).Run events k ∧ k.currentProc = some 1 ∧
          ¬ SleepsAsAsked ⟨1#64, 2#64⟩ 0 1 k 184467440737095517#64 := by
  refine ⟨by decide, by decide, ?_⟩
  obtain ⟨k, events, hrun, hcurrent⟩ := exists_shellRun
  obtain ⟨current, hinv⟩ := SchedulerInvariant.of_run hrun
  obtain rfl : current = 1 := Option.some.inj (hinv.current_eq.symm.trans hcurrent)
  exact ⟨k, events, hrun, hcurrent, not_sleepsAsAsked_of_lt hinv (by decide) (by decide)⟩

/-- A sleep of 50 milliseconds by the shell. -/
theorem sleepsAsAsked_iff_shell : ∃ k : Kernel, SleepsAsAsked ⟨1#64, 2#64⟩ 0 1 k 50#64 := by
  obtain ⟨k, events, hrun, hcurrent⟩ := exists_shellRun
  exact ⟨k, (sleepsAsAsked_iff hrun hcurrent (by decide) 50#64).mpr (by decide)⟩

end Colix.Proc
