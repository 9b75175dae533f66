import Colix.Ipc.Preemption

/-!
# No wakeup is lost

A message may be queued between `ipc_recv`'s test of its queue and its mark of SLEEPING, and then
`ipc_send` wakes nobody. `recv_wakes` shows that the receiver sleeps for one tick all the same, in
every state of every interleaving, and `queueAndWake_awake` that a message queued behind the mark
wakes it at once.
-/

set_option autoImplicit false
set_option relaxedAutoImplicit false

namespace Colix.Ipc

open Foundation Proc

variable {entryPoints : EntryPoints} {events : List PreemptEvent} {s : PreemptState}
  {idle p : ProcIndex} {k : Kernel}

/-- A place inside `ipc_recv`, its `proc_sleep` included. -/
def Pc.inRecv : Pc → Bool
  | .recv _ => true
  | .sleep _ (.recv _) => true
  | _ => false

/-- A place of `proc_sleep` inside `ipc_recv` was reached from `ipc_recv`. -/
theorem Pc.inRecv_sleep {stage : SleepStage} {caller : SleepCaller}
    (hrecv : (Pc.sleep stage caller).inRecv = true) : ∃ out, caller = .recv out := by
  cases caller with
  | recv out => exact ⟨out, rfl⟩
  | user => cases hrecv

/-- The append of `ipc_send` leaves its target awake. -/
theorem queueAndWake_awake (k : Kernel) (target : ProcIndex) (m : MsgIndex) :
    ((queueAndWake k target m).procTable target).state ≠ .sleeping := by
  rw [queueAndWake, procWakeup]
  split_ifs with hsleeping
  · rw [Kernel.modify_procTable_self]
    exact ProcState.noConfusion
  · exact hsleeping

/-- `schedule` leaves a READY process READY, or dispatches it. -/
theorem schedule_ready (hready : (k.procTable p).state = .ready) :
    ((schedule k).1.procTable p).state = .ready ∨
      ((schedule k).1.procTable p).state = .running := by
  cases hcurrent : k.currentProc with
  | none =>
    rw [schedule, hcurrent]
    exact Or.inl hready
  | some old =>
    rcases schedule_cases hcurrent with ⟨q, -, hdispatch⟩ | ⟨-, -, hsame⟩
    · rw [hdispatch, dispatch_state, requeue_state]
      split_ifs
      · exact Or.inr rfl
      · exact Or.inl rfl
      · exact Or.inl hready
    · rw [hsame]
      exact Or.inl hready

theorem timerInterrupt_ready (hready : (countdown (k.procTable p)).state = .ready) :
    ((timerInterrupt k).1.procTable p).state = .ready ∨
      ((timerInterrupt k).1.procTable p).state = .running := by
  rw [timerInterrupt, schedTick]
  split_ifs
  · exact schedule_ready hready
  · exact Or.inl hready

/-- In every state of every interleaving, a process SLEEPING in `ipc_recv`, whether or not a message
waits in its queue, has one tick to sleep: the next countdown of `sched_tick` makes it READY, and
after the interrupt it is READY or runs. -/
theorem recv_wakes (hrun : (preemptSystem entryPoints idle).Run events s)
    (hrecv : (s.pcs p).inRecv = true) (hsleeping : (s.kernel.procTable p).state = .sleeping) :
    (s.kernel.procTable p).sleepTicks = 1#64 ∧
      ((countdownAll s.kernel).procTable p).state = .ready ∧
      (((timerInterrupt s.kernel).1.procTable p).state = .ready ∨
        ((timerInterrupt s.kernel).1.procTable p).state = .running) := by
  obtain ⟨current, hinv⟩ := PreemptInvariant.of_run hrun
  have hfacts := hinv.facts p
  obtain ⟨caller, hpc⟩ := hfacts.sleeping hsleeping
  obtain ⟨stage, out, hsleep⟩ : ∃ stage out, s.pcs p = .sleep stage (.recv out) := by
    rcases hpc with hpc | hpc
    · rw [hpc] at hrecv ⊢
      obtain ⟨out, rfl⟩ := Pc.inRecv_sleep hrecv
      exact ⟨_, out, rfl⟩
    · rw [hpc] at hrecv ⊢
      obtain ⟨out, rfl⟩ := Pc.inRecv_sleep hrecv
      exact ⟨_, out, rfl⟩
  have hticks := hfacts.ticks stage out hsleep (Or.inr (Or.inr hsleeping))
  have hready := countdown_state_of_one hsleeping hticks
  exact ⟨hticks, hready, timerInterrupt_ready hready⟩

/-- The first process finds its queue empty, and ten ticks later the second sends to it before the
first goes on to sleep. -/
def lateMessage : List PreemptEvent :=
  twoCreated ++ [.own (.recv ⟨0, 0#32, 0#32, fun _ ↦ 0#8, none⟩), .statement] ++
    List.replicate 10 .tick ++ [.own (.send ⟨2, 7#32, none, 0#32⟩)] ++
    List.replicate 11 .statement ++ List.replicate 20 .tick ++ List.replicate 3 .statement

def lateState : Option PreemptState :=
  lateMessage.foldlM (PreemptEvent.perform ⟨1#64, 2#64⟩ 0) ⟨idleAlone, fun _ ↦ .outside⟩

theorem lateState_isSome : lateState.isSome = true := by
  decide +kernel

/-- It sleeps with a message in its queue, for one tick. -/
theorem recv_wakes_late : ∃ s, (preemptSystem ⟨1#64, 2#64⟩ 0).Run lateMessage s ∧
    (s.kernel.procTable 1).msgQueue = some 0 ∧ (s.kernel.procTable 1).state = .sleeping ∧
    (s.kernel.procTable 1).sleepTicks = 1#64 := by
  have hrun : (preemptSystem ⟨1#64, 2#64⟩ 0).Run lateMessage (lateState.get lateState_isSome) :=
    TransitionSystem.Run.of_get start_idleAlone lateState_isSome
  have hrecv : ((lateState.get lateState_isSome).pcs 1).inRecv = true := by decide +kernel
  have hqueue : ((lateState.get lateState_isSome).kernel.procTable 1).msgQueue = some 0 := by
    decide +kernel
  have hsleeping : ((lateState.get lateState_isSome).kernel.procTable 1).state = .sleeping := by
    decide +kernel
  generalize lateState.get lateState_isSome = s at hrun hrecv hqueue hsleeping
  obtain ⟨hticks, -⟩ := recv_wakes hrun hrecv hsleeping
  exact ⟨s, hrun, hqueue, hsleeping, hticks⟩

end Colix.Ipc
