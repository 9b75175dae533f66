import Colix.Proc.Answers

/-!
# Answers in time

A process inside a call that has given up the processor waits for its turn or for the end of a
sleep (`waits_of_run`). When it runs, its call is gone on with before the next timer interrupt. So a
yield and a sleep are answered within a bounded number of ticks, and so is a receive once there is a
message for its process (`call_answered_within`).
-/

set_option autoImplicit false
set_option relaxedAutoImplicit false

namespace Colix.Proc

open Foundation Ipc

/-- The ticks that a call asks to sleep. A receive sleeps for 10 ms, one tick, at a time. -/
def sleepAsked (call : SystemCall) : ℕ :=
  if call.num = sysSleep then askedTicks call.a1
  else if call.num = sysIpcRecv then askedTicks 10#64
  else 0

/-- The ticks that a call takes at most: what it asks to sleep, and a round of the process table. -/
def waitBudget (call : SystemCall) : ℕ :=
  sleepAsked call + 10 * (procMax - 1)

section Waiting

variable {k : Kernel} {m next : UserMachine} {idle current p : ProcIndex}
  {entryPoints : EntryPoints} {widen : Int32 → Word} {event : UserEvent}
  {events later : List UserEvent} {call : SystemCall} {rest : Rest} {budget more : ℕ}

theorem Waits.mono (hwaits : Waits idle p budget k) (hle : budget ≤ more) :
    Waits idle p more k := by
  obtain ⟨current, hinv, hwaits⟩ := hwaits
  refine ⟨current, hinv, ?_⟩
  cases hwaits with
  | turn hready hbudget => exact .turn hready (hbudget.trans hle)
  | sleep hasleep hbudget => exact .sleep hasleep (hbudget.trans hle)

/-- A process that waits does not run. -/
theorem Waits.ne_current (hwaits : Waits idle p budget k)
    (hcurrent : k.currentProc = some current) : p ≠ current := by
  obtain ⟨found, hinv, hwaits⟩ := hwaits
  obtain rfl : found = current := Option.some.inj (hinv.current_eq.symm.trans hcurrent)
  cases hwaits with
  | turn hready hbudget => exact hinv.ne_of_ready hready
  | sleep hasleep hbudget => exact hasleep.ne_current hinv

/-- A process that yields runs on or waits for a round. -/
theorem SchedulerInvariant.waits_procYield (hinv : SchedulerInvariant idle k p) :
    Runs p (procYield k).1 ∨ Waits idle p (10 * (procMax - 1)) (procYield k).1 := by
  obtain ⟨found, hschedule, -, hnext⟩ := schedule_dispatches hinv.entry
  by_cases heq : p = found
  · left
    rw [Runs, procYield, hnext.current_eq, heq]
  · have hready : ((schedule k).1.procTable p).state = .ready := by
      rw [hschedule, dispatch_state, if_neg heq, requeue_state,
        if_pos ⟨rfl, (hinv.running_iff p).mpr rfl⟩]
    exact Or.inr ⟨found, hnext, .of_ready hready heq le_rfl⟩

/-- A process whose receive has found nothing. -/
theorem SchedulerInvariant.waits_receivePass (hinv : SchedulerInvariant idle k p) (hne : p ≠ idle)
    (hnum : call.num = sysIpcRecv) (hleft : (receivePass k call).outcome = .left rest) :
    Waits idle p (waitBudget call) (receivePass k call).kernel := by
  rw [receivePass] at hleft ⊢
  cases hpass : ipcRecv k call.out with
  | returned result message after =>
    rw [hpass] at hleft
    cases hleft
  | slept after switch =>
    have hwaits := hinv.waits_procSleep hne 10#64
    rw [ipcRecv_slept hpass] at hwaits
    rw [waitBudget, sleepAsked, hnum, if_neg (by decide), if_pos rfl]
    exact hwaits

/-- A process that has left a call open. -/
theorem SchedulerInvariant.waits_called (hinv : SchedulerInvariant idle k p) (hne : p ≠ idle)
    (hleft : (syscallHandler widen k call).outcome = .left rest) (hnum : call.num ≠ sysExit) :
    Runs p (syscallHandler widen k call).kernel ∨
      Waits idle p (waitBudget call) (syscallHandler widen k call).kernel := by
  rw [syscallHandler] at hleft ⊢
  split_ifs at hleft ⊢ with hexit hwrite hgetpid hgetppid hyield hsleep hsend hrecv
  · exact absurd hexit hnum
  · rw [sysWriteHandler] at hleft
    split_ifs at hleft
  · rw [afterSchedule_kernel]
    refine hinv.waits_procYield.imp_right fun hwaits ↦ hwaits.mono ?_
    rw [waitBudget]
    omega
  · rw [afterSchedule_kernel, waitBudget, sleepAsked, if_pos hsleep]
    exact Or.inr (hinv.waits_procSleep hne call.a1)
  · exact Or.inr (hinv.waits_receivePass hne hrecv hleft)

/-- A step of the machine, to a process that waits. -/
theorem Waits.userStep (hwaits : Waits idle p budget m.kernel)
    (hstep : (userSystem entryPoints widen idle).step m event next) :
    Runs p next.kernel ∨ ∃ rest, Waits idle p rest next.kernel ∧
      rest + (if event.isTick then 1 else 0) ≤ budget := by
  rcases schedulerStep_or_same hstep with ⟨hsame, htick⟩ | ⟨schedulerEvent, htick, hlast⟩
  · rw [hsame, htick]
    exact Or.inr ⟨budget, hwaits, le_rfl⟩
  · rw [← htick]
    exact spends_waits budget m.kernel schedulerEvent next.kernel hwaits hlast

/-- A step that is not the process's own leaves it doing what it did. -/
theorem activity_of_ne (hstep : (userSystem entryPoints widen idle).step m event next)
    (hcurrent : m.kernel.currentProc = some current) (hne : p ≠ current) :
    next.activity p = m.activity p := by
  obtain ⟨q, hq, hstep⟩ := hstep
  obtain rfl : current = q := Option.some.inj (hcurrent.symm.trans hq)
  cases event with
  | timer =>
    obtain ⟨-, rfl⟩ := hstep
    rfl
  | create pages entry =>
    obtain ⟨-, -, rfl⟩ := hstep
    rfl
  | called caller call answer =>
    obtain ⟨-, -, -, -, rfl⟩ := hstep
    exact UserMachine.handle_activity_of_ne _ _ _ _ hne
  | resumed caller call answer =>
    obtain ⟨-, rest, -, -, -, rfl⟩ := hstep
    exact UserMachine.handle_activity_of_ne _ _ _ _ hne

/-- The only step of a machine whose current process is inside a call is that the call goes on. -/
theorem resumed_of_inside (hstep : (userSystem entryPoints widen idle).step m event next)
    (hcurrent : m.kernel.currentProc = some p) (hinside : m.activity p = .inside call rest) :
    p ≠ idle ∧ event.isTick = false ∧ next = m.handle p call (resumeCall m.kernel call rest) := by
  obtain ⟨q, hq, hstep⟩ := hstep
  obtain rfl : p = q := Option.some.inj (hcurrent.symm.trans hq)
  cases event with
  | timer =>
    rw [hinside] at hstep
    cases hstep.1
  | create pages entry =>
    rw [hinside] at hstep
    cases hstep.2.1
  | called caller call answer =>
    rw [hinside] at hstep
    cases hstep.2.1
  | resumed caller call answer =>
    obtain ⟨hne, rest, hrest, -, -, rfl⟩ := hstep
    rw [hinside] at hrest
    cases hrest
    exact ⟨hne, rfl, rfl⟩

/-- A process inside a call other than `SYS_EXIT` runs, or waits for as long as its call may
take. -/
theorem waits_of_run (hrun : (userSystem entryPoints widen idle).Run events m)
    (hinside : m.activity p = .inside call rest) (hnum : call.num ≠ sysExit) :
    Runs p m.kernel ∨ Waits idle p (waitBudget call) m.kernel := by
  obtain ⟨-, hwaits⟩ : (userSystem entryPoints widen idle).Run events m ∧
      ∀ p call rest, m.activity p = .inside call rest → call.num ≠ sysExit →
        Runs p m.kernel ∨ Waits idle p (waitBudget call) m.kernel := by
    refine hrun.history_invariant (motive := fun events m ↦
      (userSystem entryPoints widen idle).Run events m ∧
        ∀ p call rest, m.activity p = .inside call rest → call.num ≠ sysExit →
          Runs p m.kernel ∨ Waits idle p (waitBudget call) m.kernel) ?_ ?_
    · rintro m ⟨hstart, huser, hprinted⟩
      refine ⟨TransitionSystem.Run.start ⟨hstart, huser, hprinted⟩, fun p call rest hinside ↦ ?_⟩
      rw [huser] at hinside
      cases hinside
    · rintro events m event next ⟨hbefore, hwaits⟩ hstep
      refine ⟨hbefore.step hstep, fun p call rest hinside hnum ↦ ?_⟩
      obtain ⟨current, hinv⟩ := SchedulerInvariant.of_userRun hbefore
      by_cases hcurrent : p = current
      · -- the step is the process's own
        subst hcurrent
        obtain ⟨q, hq, hstep⟩ := hstep
        obtain rfl : p = q := Option.some.inj (hinv.current_eq.symm.trans hq)
        cases event with
        | timer =>
          obtain ⟨huser, rfl⟩ := hstep
          rw [huser] at hinside
          cases hinside
        | create pages entry =>
          obtain ⟨-, huser, rfl⟩ := hstep
          rw [huser] at hinside
          cases hinside
        | called caller other answer =>
          obtain ⟨hne, -, -, -, rfl⟩ := hstep
          rw [UserMachine.handle_activity_self] at hinside
          cases hleft : (syscallHandler widen m.kernel other).outcome with
          | answered answer =>
            rw [hleft] at hinside
            cases hinside
          | left rest =>
            rw [hleft] at hinside
            cases hinside
            exact hinv.waits_called hne hleft hnum
        | resumed caller other answer =>
          obtain ⟨hne, before, hbeforeInside, -, -, rfl⟩ := hstep
          rw [UserMachine.handle_activity_self] at hinside
          have hrest := restOf_of_run hbefore hbeforeInside
          cases hrest with
          | exit hnum hexited => cases hinside
          | schedule hnum => cases hinside
          | receive hrecv hout =>
            cases hleft : (receivePass m.kernel other).outcome with
            | answered answer =>
              rw [resumeCall, hleft] at hinside
              cases hinside
            | left rest =>
              rw [resumeCall, hleft] at hinside
              cases hinside
              exact Or.inr (hinv.waits_receivePass hne hrecv hleft)
      · have hsame := activity_of_ne hstep hinv.current_eq hcurrent
        rw [hsame] at hinside
        rcases hwaits p call rest hinside hnum with hruns | hwaiting
        · exact absurd (Option.some.inj (hruns.symm.trans hinv.current_eq)) hcurrent
        · refine (hwaiting.userStep hstep).imp_right ?_
          rintro ⟨rest, hrest, hle⟩
          exact hrest.mono (by omega)
  exact hwaits p call rest hinside hnum

end Waiting

/-! ### The answer -/

section Answer

variable {m next : UserMachine} {idle p : ProcIndex} {entryPoints : EntryPoints}
  {widen : Int32 → Word} {events later : List UserEvent} {call : SystemCall} {rest : Rest}
  {messages : List Message}

/-- The process has its answer as soon as it runs: it is inside a call that is no receive, or these
messages wait for it. It runs, or waits for its turn. -/
structure DueWithin (idle p : ProcIndex) (messages : List Message) (budget : ℕ) (m : UserMachine) :
    Prop where
  inside : ∃ call rest, m.activity p = .inside call rest ∧
    ((∃ value, rest = .value value) ∨ call.out ≠ none ∧ messages ≠ [])
  waits : (RunsWith p messages m.kernel ∧ 1 ≤ budget) ∨
    ∃ turn, WaitsWith idle p messages turn m.kernel ∧ turn + 1 ≤ budget

/-- A receive with a message is answered. -/
theorem answered_receivePass (hruns : RunsWith p messages m.kernel) (hout : call.out ≠ none)
    (hmessages : messages ≠ []) :
    ∃ answer, (receivePass m.kernel call).outcome = .answered answer := by
  obtain ⟨buffer, hbuffer⟩ := Option.ne_none_iff_exists'.mp hout
  have hqueued : queuedMessages m.kernel p ≠ [] := fun hempty ↦
    hmessages (List.prefix_nil.mp (hempty ▸ hruns.queued))
  obtain ⟨message, hmessage⟩ := Option.isSome_iff_exists.mp (List.isSome_head?.mpr hqueued)
  obtain ⟨received, after, hrecv, -⟩ := ipcRecv_first hruns.order hruns.runs hmessage buffer
  rw [receivePass, hbuffer, hrecv]
  exact ⟨_, rfl⟩

/-- A step brings the answer or leaves it due, by one tick sooner if the step is one. -/
theorem spends_dueWithin : (userSystem entryPoints widen idle).Spends (DueWithin idle p messages)
    UserEvent.isTick fun m ↦ m.activity p = .user := by
  rintro budget m event next ⟨⟨call, rest, hinside, hdue⟩, hwaits⟩ hstep
  rcases hwaits with ⟨hruns, -⟩ | ⟨turn, hwaits, hbudget⟩
  · left
    obtain ⟨-, -, rfl⟩ := resumed_of_inside hstep hruns.runs hinside
    rw [UserMachine.handle_activity_self]
    rcases hdue with ⟨value, rfl⟩ | ⟨hout, hmessages⟩
    · rfl
    · cases rest with
      | value value => rfl
      | receive =>
        obtain ⟨answer, hanswer⟩ := answered_receivePass hruns hout hmessages
        rw [resumeCall, hanswer]
        rfl
  · right
    obtain ⟨current, hinv, -⟩ := id hwaits.waits
    have hsame := activity_of_ne hstep hinv.current_eq (hwaits.waits.ne_current hinv.current_eq)
    have hstill := (congrArg (· = Activity.inside call rest) hsame).mpr hinside
    rcases schedulerStep_or_same hstep with ⟨hkernel, htick⟩ | ⟨schedulerEvent, htick, hlast⟩
    · refine ⟨budget, ⟨⟨call, rest, hstill, hdue⟩, Or.inr ⟨turn, ?_, hbudget⟩⟩, ?_⟩
      · rw [hkernel]
        exact hwaits
      · rw [htick]
        exact le_rfl
    · rw [← htick]
      rcases spends_waitsWith turn m.kernel schedulerEvent next.kernel hwaits hlast with
        hruns | ⟨less, hless, hle⟩
      · refine ⟨1, ⟨⟨call, rest, hstill, hdue⟩, Or.inl ⟨hruns, le_rfl⟩⟩, ?_⟩
        have hpositive : turn ≠ 0 := by
          rintro rfl
          exact not_waits_zero m.kernel hwaits.waits
        split_ifs <;> omega
      · exact ⟨less + 1, ⟨⟨call, rest, hstill, hdue⟩, Or.inr ⟨less, hless, le_rfl⟩⟩, by omega⟩

/-- A process inside a call other than `SYS_EXIT` has its answer within the ticks that the call may
take and one more, if the call is a yield or a sleep, or a receive with a message in the queue. -/
theorem call_answered_within (hrun : (userSystem entryPoints widen idle).Run events m)
    (hinside : m.activity p = .inside call rest) (hnum : call.num ≠ sysExit)
    (hqueued : call.num = sysIpcRecv → queuedMessages m.kernel p ≠ [])
    (hpath : (userSystem entryPoints widen idle).Path m later next)
    (hticks : waitBudget call + 1 ≤ later.countP UserEvent.isTick) :
    (userSystem entryPoints widen idle).Passes (fun s ↦ s.activity p = .user) m later next := by
  have horder := queuesInOrder_of_userRun hrun
  have hdue : (∃ value, rest = .value value) ∨
      call.out ≠ none ∧ queuedMessages m.kernel p ≠ [] := by
    have hrest := restOf_of_run hrun hinside
    cases hrest with
    | exit hexit hexited => exact absurd hexit hnum
    | schedule hschedule => exact Or.inl ⟨_, rfl⟩
    | receive hrecv hout => exact Or.inr ⟨hout, hqueued hrecv⟩
  have hwaits : DueWithin idle p (queuedMessages m.kernel p) (waitBudget call + 1) m := by
    refine ⟨⟨call, rest, hinside, hdue⟩, (waits_of_run hrun hinside hnum).imp ?_ ?_⟩
    · exact fun hruns ↦ ⟨⟨hruns, horder, List.prefix_rfl⟩, Nat.le_add_left 1 _⟩
    · exact fun hwaits ↦ ⟨_, ⟨hwaits, horder, List.prefix_rfl⟩, le_rfl⟩
  refine hpath.passes spends_dueWithin (fun s hzero ↦ ?_) hwaits hticks
  rcases hzero.waits with ⟨-, hpositive⟩ | ⟨turn, -, hpositive⟩
  · omega
  · omega

/-- The shell yields to idle, and has its answer within 631 ticks. -/
theorem call_answered_within_yield : ∃ m next : UserMachine, ∃ later,
    m.activity 1 = .inside (callOf sysYield 0#64 0#64 0#64 0#64) (.value 0#64) ∧
      (userSystem ⟨1#64, 2#64⟩ (fun n ↦ n.toBitVec.signExtend 64) 0).Passes
        (fun s ↦ s.activity 1 = .user) m later next := by
  have hcurrent : (twoUsers.ticked 10).kernel.currentProc = some 1 := by decide
  have hcalled := (run_twoUsers (fun n ↦ n.toBitVec.signExtend 64) 10).step
    (step_called (callOf sysYield 0#64 0#64 0#64 0#64) hcurrent (by decide) rfl)
  obtain ⟨m, hm⟩ : ∃ m, m = (twoUsers.ticked 10).handle 1 (callOf sysYield 0#64 0#64 0#64 0#64)
    (syscallHandler (fun n ↦ n.toBitVec.signExtend 64) (twoUsers.ticked 10).kernel
      (callOf sysYield 0#64 0#64 0#64 0#64)) := ⟨_, rfl⟩
  rw [← hm] at hcalled
  have hinside : m.activity 1 = .inside (callOf sysYield 0#64 0#64 0#64 0#64) (.value 0#64) := by
    rw [hm, UserMachine.handle_activity_self]
    rfl
  -- idle runs for ten ticks, then the shell
  have hidle : ∀ i < 10, (m.ticked i).kernel.currentProc = some 0 := by
    rw [hm]
    decide
  have hticks := userTicks hcalled 10 fun i hi p hp ↦ by
    rw [hidle i hi, Option.some.injEq] at hp
    rw [← hp, hm, UserMachine.handle_activity_of_ne _ _ _ _ (by decide)]
    rfl
  have hruns : (m.ticked 10).kernel.currentProc = some 1 := by
    rw [hm]
    decide
  have hanswered := hticks.step (step_resumed hruns (by decide) hinside)
  have hlater := userTicks (hcalled.append hanswered) 631 fun i _ p _ ↦ by
    by_cases heq : p = 1
    · rw [heq, UserMachine.handle_activity_self]
      rfl
    · rw [UserMachine.handle_activity_of_ne _ _ _ _ heq, UserMachine.ticked, hm,
        UserMachine.handle_activity_of_ne _ _ _ _ heq]
      rfl
  have hpath := hanswered.trans hlater
  refine ⟨m, _, _, hinside, call_answered_within hcalled hinside (by decide)
    (fun hrecv ↦ absurd hrecv (by decide)) hpath ?_⟩
  have hbudget : waitBudget (callOf sysYield 0#64 0#64 0#64 0#64) = 630 := by decide
  rw [hbudget]
  simp only [List.countP_append, List.countP_replicate, UserEvent.isTick, if_true]
  omega

end Answer

end Colix.Proc
