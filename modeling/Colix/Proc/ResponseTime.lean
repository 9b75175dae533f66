import Colix.Foundation.Progress
import Colix.Proc.RoundRobin
import Colix.Proc.Sleep

/-!
# Response times

Every tenth timer interrupt calls `schedule`, and a call of `schedule` either dispatches a READY
process or brings the turn nearer to it. So a READY process runs within ten timer interrupts for
every place that it is behind the current one (`ready_runs`), and a process that has gone to sleep
runs again within its sleep and as long after that (`sleep_runs`), whatever the others do.
-/

set_option autoImplicit false
set_option relaxedAutoImplicit false

namespace Colix.Proc

open Foundation Ipc

/-! ### The clock -/

/-- The timer interrupts up to the next one that calls `schedule`, that one included. The clock
wraps before it is a multiple of ten again. -/
def ticksToSchedule (ticks : Word) : ℕ :=
  min (10 - ticks.toNat % 10) (2 ^ 64 - ticks.toNat)

section Clock

variable {ticks : Word}

theorem ticksToSchedule_pos (ticks : Word) : 0 < ticksToSchedule ticks := by
  have hlt := ticks.isLt
  rw [ticksToSchedule]
  omega

theorem ticksToSchedule_le (ticks : Word) : ticksToSchedule ticks ≤ 10 :=
  (min_le_left _ _).trans (Nat.sub_le ..)

/-- A tick that does not call `schedule` is one less to the next that does. -/
theorem ticksToSchedule_succ (hnot : (ticks + 1#64) % 10#64 ≠ 0#64) :
    ticksToSchedule (ticks + 1#64) + 1 = ticksToSchedule ticks := by
  have hlt := ticks.isLt
  have hremainder : (ticks + 1#64).toNat % 10 ≠ 0 := fun hzero ↦
    hnot (BitVec.eq_of_toNat_eq (by rw [BitVec.toNat_umod]; exact hzero))
  -- zero is a multiple of ten, so the clock has not wrapped
  have hnext : (ticks + 1#64).toNat = ticks.toNat + 1 := by
    rw [BitVec.toNat_add, show (1#64 : Word).toNat = 1 from rfl] at hremainder ⊢
    refine Nat.mod_eq_of_lt (lt_of_le_of_ne hlt fun hwraps ↦ hremainder ?_)
    rw [hwraps, Nat.mod_self, Nat.zero_mod]
  rw [hnext] at hremainder
  rw [ticksToSchedule, ticksToSchedule, hnext]
  omega

end Clock

/-! ### Waiting for a turn -/

/-- What a READY or SLEEPING process waits for at most: for its turn, ten ticks a place, or for the
end of its sleep and the whole round. -/
inductive WaitsFor (k : Kernel) (current p : ProcIndex) : ℕ → Prop
  | turn {budget : ℕ} (hready : (k.procTable p).state = .ready)
      (hbudget : 10 * (cyclicSteps procMax current p - 1) + ticksToSchedule k.ticks ≤ budget) :
      WaitsFor k current p budget
  | sleep {budget count : ℕ} (hasleep : Asleep k p (count + 1))
      (hbudget : count + 1 + 10 * (procMax - 1) ≤ budget) : WaitsFor k current p budget

/-- The process waits, in a state of the scheduler. -/
def Waits (idle p : ProcIndex) (budget : ℕ) (k : Kernel) : Prop :=
  ∃ current, SchedulerInvariant idle k current ∧ WaitsFor k current p budget

section Waits

variable {k next : Kernel} {idle current p : ProcIndex} {budget : ℕ} {entryPoints : EntryPoints}
  {event : SchedulerEvent}

/-- A READY process is not the current one. -/
theorem SchedulerInvariant.ne_of_ready (hinv : SchedulerInvariant idle k current)
    (hready : (k.procTable p).state = .ready) : p ≠ current := by
  rintro rfl
  have hrunning := (hinv.running_iff p).mpr rfl
  rw [hready] at hrunning
  cases hrunning

/-- A full round is enough for any READY process. -/
theorem WaitsFor.of_ready (hready : (k.procTable p).state = .ready) (hne : p ≠ current)
    (hbudget : 10 * (procMax - 1) ≤ budget) : WaitsFor k current p budget := by
  have hticks := ticksToSchedule_le k.ticks
  have hsteps : cyclicSteps procMax current p < procMax := by
    have hp := p.isLt
    have hcurrent := current.isLt
    have hdiffer : (p : ℕ) ≠ current := fun heq ↦ hne (Fin.ext heq)
    rw [cyclicSteps]
    split_ifs <;> omega
  have hmax : procMax = 64 := rfl
  exact .turn hready (by omega)

theorem not_waits_zero (k : Kernel) : ¬ Waits idle p 0 k := by
  rintro ⟨current, -, hturn | hsleep⟩
  · have hpositive := ticksToSchedule_pos k.ticks
    omega
  · omega

/-- The turn of a READY process is nearer after a call of `schedule` that does not dispatch it. -/
theorem schedule_nearer (hentry : SchedulerEntry idle k current) (hne : p ≠ current)
    (hready : (k.procTable p).state = .ready) :
    (schedule k).1.currentProc = some p ∨
      ∃ found, SchedulerInvariant idle (schedule k).1 found ∧
        ((schedule k).1.procTable p).state = .ready ∧
        0 < cyclicSteps procMax found p ∧
        cyclicSteps procMax found p < cyclicSteps procMax current p := by
  obtain ⟨found, hschedule, hfind, hinv⟩ := schedule_dispatches hentry
  by_cases hfound : found = p
  · left
    rw [hinv.current_eq, hfound]
  · right
    have hrequeued : ((requeue k current).procTable p).state = .ready := by
      rw [requeue_state, if_neg fun h ↦ hne h.1]
      exact hready
    have hle := nextReady_steps_le hfind hrequeued
    have hlt : cyclicSteps procMax current found < cyclicSteps procMax current p :=
      lt_of_le_of_ne hle fun heq ↦ hfound (Fin.ext
        (cyclicSteps_inj current.isLt found.isLt p.isLt heq))
    have hpositive : 0 < cyclicSteps procMax current found := by
      have hcurrent := current.isLt
      rw [cyclicSteps]
      split_ifs <;> omega
    refine ⟨found, hinv, ?_, ?_⟩
    · rw [hschedule, dispatch_state, if_neg (Ne.symm hfound)]
      exact hrequeued
    · rw [cyclicSteps_sub current.isLt found.isLt p.isLt hlt]
      omega

end Waits

/-! ### What a step does to those who wait -/

section Step

variable {k next : Kernel} {idle current p : ProcIndex} {budget count : ℕ}
  {entryPoints : EntryPoints} {event : SchedulerEvent}

/-- A step that does not call `schedule`: who is READY stays so, and who sleeps sleeps on or is
woken up. -/
structure LeavesWaiting (k next : Kernel) : Prop where
  statesKept : StatesKept k next
  ticks_eq : next.ticks = k.ticks
  sleeper : ∀ p count, Asleep k p count →
    Asleep next p count ∨ (next.procTable p).state = .ready

/-- The state in which a step calls `schedule`: only the current process has been written to. -/
structure EntersSchedule (idle : ProcIndex) (k entered : Kernel) (current : ProcIndex) : Prop where
  entry : SchedulerEntry idle entered current
  ticks_eq : entered.ticks = k.ticks
  others : ∀ p, p ≠ current → entered.procTable p = k.procTable p

theorem LeavesWaiting.refl (k : Kernel) : LeavesWaiting k k :=
  ⟨StatesKept.refl k, rfl, fun _ _ hasleep ↦ Or.inl hasleep⟩

/-- A creation wakes nobody. -/
theorem leavesWaiting_of_creates {result : Option ProcIndex × Kernel} (hcreates : Creates k result)
    (hticks : result.2.ticks = k.ticks) : LeavesWaiting k result.2 := by
  rcases hcreates with rfl | ⟨q, next, rfl, hadded⟩
  · exact LeavesWaiting.refl k
  · exact ⟨statesKept_of_added hadded, hticks,
      fun p count hasleep ↦ Or.inl (hasleep.added hadded)⟩

theorem ticks_procCreate (entryPoints : EntryPoints) (kstack : Word) (name : List Byte)
    (entry : Word) (k : Kernel) :
    (procCreate entryPoints kstack name entry k).2.ticks = k.ticks := by
  rcases procCreate_cases entryPoints kstack name entry k with hsame | ⟨p, -, -, hcreate⟩
  · rw [hsame]
  · rw [hcreate]
    rfl

theorem ticks_procCreateElf (entryPoints : EntryPoints) (pages : ElfPages) (entry : Word)
    (k : Kernel) : (procCreateElf entryPoints pages entry k).2.ticks = k.ticks := by
  rcases procCreateElf_cases entryPoints pages entry k with hsame | ⟨p, -, hcreate⟩
  · rw [hsame]
  · rw [hcreate]
    rfl

/-- Neither queueing a message nor waking its receiver moves the clock. -/
theorem ticks_ipcSend (k : Kernel) (dst : Pid) (type : Word32) (data : Option (ℕ → Byte))
    (len : Word32) : (ipcSend k dst type data len).2.ticks = k.ticks := by
  have hqueue : ∀ target m, (queuedState k target m type data len).ticks = k.ticks := by
    intro target m
    simp only [queuedState, enqueue]
    split <;> rfl
  rcases ipcSend_cases k dst type data len with ⟨-, hreturn⟩ |
    ⟨target, -, ⟨-, hreturn⟩ | ⟨-, -, hreturn⟩ | ⟨-, m, -, hreturn⟩⟩
  · rw [hreturn]
  · rw [hreturn]
  · rw [hreturn]
  · rw [hreturn, procWakeup]
    split_ifs
    · exact hqueue target m
    · exact hqueue target m

theorem ticks_dequeue (k : Kernel) (p : ProcIndex) (m : MsgIndex) (out : IpcMessage) :
    (dequeue k p m out).2.ticks = k.ticks := by
  simp only [dequeue]
  split_ifs <;> rfl

/-- A send wakes its target when it queues the message. -/
theorem leavesWaiting_ipcSend (k : Kernel) (dst : Pid) (type : Word32) (data : Option (ℕ → Byte))
    (len : Word32) : LeavesWaiting k (ipcSend k dst type data len).2 := by
  refine ⟨statesKept_ipcSend k dst type data len, ticks_ipcSend k dst type data len,
    fun p count hasleep ↦ ?_⟩
  by_cases hfind : procFind k dst = some p
  · rcases ipcSend_cases k dst type data len with ⟨-, hreturn⟩ |
      ⟨target, htarget, ⟨-, hreturn⟩ | ⟨-, -, hreturn⟩ | ⟨-, m, -, hreturn⟩⟩
    · rw [hreturn]
      exact Or.inl hasleep
    · rw [hreturn]
      exact Or.inl hasleep
    · rw [hreturn]
      exact Or.inl hasleep
    · right
      obtain rfl : target = p := Option.some.inj (htarget.symm.trans hfind)
      rw [hreturn, procWakeup, if_pos ((state_queuedState ..).trans hasleep.1),
        Kernel.modify_procTable_self]
  · exact Or.inl (hasleep.ipcSend hfind)

theorem EntersSchedule.modify (hinv : SchedulerInvariant idle k current) (hne : current ≠ idle)
    (f : Process → Process) : EntersSchedule idle k (k.modify current f) current :=
  ⟨hinv.entry.modify hne f, rfl, fun _ hp ↦ Kernel.modify_procTable_of_ne _ _ hp⟩

/-- A step other than a tick leaves those who wait, or calls `schedule`. -/
theorem SchedulerInvariant.step_cases (hinv : SchedulerInvariant idle k current)
    (hstep : (schedulerSystem entryPoints idle).step k event next)
    (hnoTick : event.isTick = false) :
    LeavesWaiting k next ∨
      ∃ entered, EntersSchedule idle k entered current ∧ next = (schedule entered).1 := by
  have hnotIdle : k.currentProc ≠ some idle → current ≠ idle := by
    rintro h rfl
    exact h hinv.current_eq
  cases event with
  | call call =>
    obtain ⟨hcaller, rfl⟩ := hstep
    cases call with
    | timer => cases hnoTick
    | yield => exact Or.inr ⟨k, ⟨hinv.entry, rfl, fun _ _ ↦ rfl⟩, rfl⟩
    | sleep ms =>
      refine Or.inr ⟨_, EntersSchedule.modify hinv (hnotIdle ?_) _,
        congrArg Prod.fst (procSleep_eq hinv.current_eq ms)⟩
      exact hcaller.resolve_left fun h ↦ KernelCall.noConfusion h
    | exit code =>
      refine Or.inr ⟨_, EntersSchedule.modify hinv (hnotIdle ?_) _,
        congrArg Prod.fst (procExit_eq hinv.current_eq code)⟩
      exact hcaller.resolve_left fun h ↦ KernelCall.noConfusion h
    | create kstack name entry =>
      exact Or.inl (leavesWaiting_of_creates (procCreate_creates ..) (ticks_procCreate ..))
    | createElf pages entry =>
      exact Or.inl (leavesWaiting_of_creates (procCreateElf_creates ..) (ticks_procCreateElf ..))
  | send dst type data len =>
    obtain ⟨-, rfl⟩ := hstep
    exact Or.inl (leavesWaiting_ipcSend ..)
  | recv out =>
    obtain ⟨hcaller, rfl⟩ := hstep
    cases hpass : ipcRecv k out with
    | returned result message after =>
      rcases ipcRecv_returned_cases hpass with ⟨-, rfl⟩ | ⟨q, m, buffer, -, -, -, -, -, rfl⟩
      · exact Or.inl (LeavesWaiting.refl _)
      · refine Or.inl ⟨statesKept_dequeue k q m buffer, ticks_dequeue k q m buffer,
          fun p count hasleep ↦ Or.inl ?_⟩
        have hreceived := hasleep.ipcRecv hinv out
        rwa [hpass] at hreceived
    | slept after switch =>
      have hslept := congrArg Prod.fst (procSleep_eq hinv.current_eq 10#64)
      rw [ipcRecv_slept hpass] at hslept
      exact Or.inr ⟨_, EntersSchedule.modify hinv (hnotIdle hcaller) _, hslept⟩

/-- The timer interrupt counts down the sleepers, and at every tenth tick calls `schedule`. -/
theorem timerInterrupt_eq (hcurrent : k.currentProc = some current) :
    (timerInterrupt k).1 =
      if (k.ticks + 1#64) % 10#64 = 0#64 then
        (schedule (countdownAll { k with ticks := k.ticks + 1#64 })).1
      else countdownAll { k with ticks := k.ticks + 1#64 } := by
  have hsome : (countdownAll { k with ticks := k.ticks + 1#64 }).currentProc.isSome = true :=
    congrArg Option.isSome hcurrent
  rw [timerInterrupt, schedTick, hsome, Bool.true_and]
  simp only [beq_iff_eq]
  exact apply_ite Prod.fst _ _ _

/-- A READY process is dispatched or its turn is nearer after a call of `schedule`, whatever is left
of the ten ticks. -/
theorem turn_schedule (hentry : SchedulerEntry idle k current) (hne : p ≠ current)
    (hready : (k.procTable p).state = .ready)
    (hbudget : 10 * (cyclicSteps procMax current p - 1) ≤ budget) :
    (schedule k).1.currentProc = some p ∨ Waits idle p budget (schedule k).1 := by
  refine (schedule_nearer hentry hne hready).imp_right ?_
  rintro ⟨found, hinv, hready, hpositive, hlt⟩
  refine ⟨found, hinv, .turn hready ?_⟩
  have hticks := ticksToSchedule_le (schedule k).1.ticks
  omega

/-- A tick. -/
theorem Waits.timer (hwaits : Waits idle p budget k) :
    (timerInterrupt k).1.currentProc = some p ∨
      ∃ rest, Waits idle p rest (timerInterrupt k).1 ∧ rest + 1 ≤ budget := by
  obtain ⟨current, hinv, hwaits⟩ := hwaits
  obtain ⟨counted, hcounted⟩ : ∃ counted, counted =
    countdownAll { k with ticks := k.ticks + 1#64 } := ⟨_, rfl⟩
  have hkept : StatesKept k counted := by
    have hclock : StatesKept k { k with ticks := k.ticks + 1#64 } :=
      StatesKept.of_eq rfl (fun _ ↦ rfl) fun _ ↦ rfl
    rw [hcounted]
    exact hclock.trans (statesKept_countdownAll _)
  have hticks : counted.ticks = k.ticks + 1#64 := by
    rw [hcounted]
    rfl
  have hcountedInv := hinv.kept hkept
  cases hwaits with
  | turn hready hbudget =>
    have hpositive := ticksToSchedule_pos k.ticks
    have hcountedReady := hkept.ready p hready
    rw [timerInterrupt_eq hinv.current_eq, ← hcounted]
    split_ifs with htenth
    · have hturn := turn_schedule hcountedInv.entry (hinv.ne_of_ready hready) hcountedReady
        (Nat.le_refl _)
      exact hturn.imp_right fun hwaits ↦ ⟨_, hwaits, by omega⟩
    · have hless := ticksToSchedule_succ htenth
      refine Or.inr ⟨_, ⟨current, hcountedInv, .turn hcountedReady (Nat.le_refl _)⟩, ?_⟩
      rw [hticks]
      omega
  | @sleep count hasleep hbudget =>
    obtain ⟨found, hnext⟩ := hinv.timer.invariant
    cases count with
    | zero =>
      obtain ⟨-, hready | ⟨hdispatched, -⟩⟩ := hasleep.wakes
      · exact Or.inr ⟨_, ⟨found, hnext, .of_ready hready (hnext.ne_of_ready hready) le_rfl⟩,
          by omega⟩
      · exact Or.inl hdispatched
    | succ count =>
      exact Or.inr ⟨_, ⟨found, hnext, .sleep hasleep.timer le_rfl⟩, by omega⟩

/-- A step other than a tick. -/
theorem Waits.other (hwaits : Waits idle p budget k)
    (hstep : (schedulerSystem entryPoints idle).step k event next)
    (hnoTick : event.isTick = false) :
    next.currentProc = some p ∨ Waits idle p budget next := by
  obtain ⟨current, hinv, hwaits⟩ := hwaits
  rcases hinv.step_cases hstep hnoTick with hleaves | ⟨entered, henters, rfl⟩
  · have hkept := hinv.kept hleaves.statesKept
    refine Or.inr ⟨current, hkept, ?_⟩
    cases hwaits with
    | turn hready hbudget =>
      rw [← hleaves.ticks_eq] at hbudget
      exact .turn (hleaves.statesKept.ready p hready) hbudget
    | sleep hasleep hbudget =>
      rcases hleaves.sleeper p _ hasleep with hstill | hready
      · exact .sleep hstill hbudget
      · exact .of_ready hready (hkept.ne_of_ready hready) (by omega)
  · cases hwaits with
    | turn hready hbudget =>
      have hne := hinv.ne_of_ready hready
      refine turn_schedule henters.entry hne ?_ (by omega)
      rw [henters.others p hne]
      exact hready
    | sleep hasleep hbudget =>
      obtain ⟨found, -, -, hdispatched⟩ := schedule_dispatches henters.entry
      have hstill := hasleep.of_eq (henters.others p (hasleep.ne_current hinv))
      exact Or.inr ⟨found, hdispatched, .sleep hstill.schedule hbudget⟩

/-- The process is current. -/
def Runs (p : ProcIndex) (k : Kernel) : Prop :=
  k.currentProc = some p

/-- A process that waits runs within its budget of ticks. -/
theorem spends_waits :
    (schedulerSystem entryPoints idle).Spends (Waits idle p) SchedulerEvent.isTick (Runs p) := by
  intro budget k event next hwaits hstep
  cases htick : event.isTick with
  | false =>
    refine (hwaits.other hstep htick).imp_right fun hnext ↦ ⟨budget, hnext, ?_⟩
    exact Nat.le_refl budget
  | true =>
    cases event with
    | call call =>
      cases call with
      | timer =>
        obtain ⟨-, rfl⟩ := hstep
        exact hwaits.timer
      | _ => cases htick
    | _ => cases htick

end Step

/-! ### Runs -/

section Runs

variable {k next : Kernel} {idle p : ProcIndex} {entryPoints : EntryPoints}
  {before events : List SchedulerEvent}

/-- A READY process runs within ten timer interrupts for each of the other 63 places of the process
table, whatever the processes do meanwhile. -/
theorem ready_runs (hrun : (schedulerSystem entryPoints idle).Run before k)
    (hready : (k.procTable p).state = .ready)
    (hpath : (schedulerSystem entryPoints idle).Path k events next)
    (hticks : 10 * (procMax - 1) ≤ tickCount events) :
    (schedulerSystem entryPoints idle).Passes (Runs p) k events next := by
  obtain ⟨current, hinv⟩ := SchedulerInvariant.of_run hrun
  have hwaits : Waits idle p (10 * (procMax - 1)) k :=
    ⟨current, hinv, .of_ready hready (hinv.ne_of_ready hready) le_rfl⟩
  exact hpath.passes spends_waits not_waits_zero hwaits hticks

/-- A process that goes to sleep waits for the end of its sleep and a round of the process table. -/
theorem SchedulerInvariant.waits_procSleep (hinv : SchedulerInvariant idle k p) (hne : p ≠ idle)
    (ms : Word) : Waits idle p (askedTicks ms + 10 * (procMax - 1)) (procSleep k ms).1 := by
  have hpositive := sleepTicksOf_pos ms
  have hle := toNat_sleepTicksOf_le ms
  obtain ⟨⟨found, hslept⟩, hasleep⟩ := sleepInvariant_start hinv hne ms
  have hcount : Asleep (procSleep k ms).1 p ((sleepTicksOf ms).toNat - 1 + 1) := by
    rw [Nat.sub_add_cancel hpositive]
    exact hasleep hpositive
  exact ⟨found, hslept, .sleep hcount (by omega)⟩

/-- A process that calls `proc_sleep(ms)` runs again within the ticks it asked for and a round of
the process table, whatever the processes do meanwhile. -/
theorem sleep_runs (hrun : (schedulerSystem entryPoints idle).Run before k)
    (hcurrent : k.currentProc = some p) (hne : p ≠ idle) (ms : Word)
    (hpath : (schedulerSystem entryPoints idle).Path (procSleep k ms).1 events next)
    (hticks : askedTicks ms + 10 * (procMax - 1) ≤ tickCount events) :
    (schedulerSystem entryPoints idle).Passes (Runs p) (procSleep k ms).1 events next := by
  obtain ⟨current, hinv⟩ := SchedulerInvariant.of_run hrun
  obtain rfl : current = p := Option.some.inj (hinv.current_eq.symm.trans hcurrent)
  exact hpath.passes spends_waits not_waits_zero (hinv.waits_procSleep hne ms) hticks

/-- Timer interrupts alone are a path. -/
theorem tickPath (entryPoints : EntryPoints) (idle : ProcIndex) (k : Kernel) (n : ℕ) :
    (schedulerSystem entryPoints idle).Path k (List.replicate n (.call .timer))
      ((fun k ↦ (timerInterrupt k).1)^[n] k) := by
  induction n with
  | zero => exact TransitionSystem.Path.refl k
  | succ n ih =>
    rw [Function.iterate_succ_apply', List.replicate_succ']
    exact ih.step ⟨Or.inl rfl, rfl⟩

theorem tickCount_replicate (n : ℕ) : tickCount (List.replicate n (.call .timer)) = n := by
  rw [tickCount, List.countP_replicate]
  rfl

theorem run_twoReady : (schedulerSystem ⟨1#64, 2#64⟩ 0).Run [] twoReady :=
  TransitionSystem.Run.start ⟨3#64, 0x400018#64, _, kernelMain_twoReady⟩

/-- The shell is READY when idle starts, and runs within 630 ticks. -/
theorem ready_runs_shell : ∃ next, (schedulerSystem ⟨1#64, 2#64⟩ 0).Passes (Runs 1) twoReady
    (List.replicate 630 (.call .timer)) next :=
  ⟨_, ready_runs run_twoReady (by decide) (tickPath ⟨1#64, 2#64⟩ 0 twoReady 630)
    (tickCount_replicate 630).ge⟩

/-- The shell sleeps for 50 milliseconds, and runs again within 635 ticks. -/
theorem sleep_runs_shell : ∃ k next : Kernel, k.currentProc = some 1 ∧
    (schedulerSystem ⟨1#64, 2#64⟩ 0).Passes (Runs 1) (procSleep k 50#64).1
      (List.replicate 635 (.call .timer)) next := by
  obtain ⟨k, events, hrun, hcurrent⟩ := exists_shellRun
  have hpath := tickPath ⟨1#64, 2#64⟩ 0 (procSleep k 50#64).1 635
  exact ⟨k, _, hcurrent, sleep_runs hrun hcurrent (by decide) 50#64 hpath
    (tickCount_replicate 635).ge⟩

end Runs

end Colix.Proc
