import Colix.Proc.Contexts

/-!
# Round robin

Runs of `schedule`, each call one step, with anything that reaches the process table in between
short of another dispatch. A dispatch moves forward from the current entry to the first READY one,
so a READY process that is not chosen gets nearer, and the turn cannot come back to a process before
it has been at every other that stayed READY (`never_overtaken`).
-/

set_option autoImplicit false
set_option relaxedAutoImplicit false

namespace Colix.Proc

open Foundation Ipc

/-! ### What one call chooses -/

/-- `schedule` moves from the current entry no further than to any READY one. -/
theorem nextReady_steps_le {k : Kernel} {start p other : ProcIndex}
    (hfind : nextReady k start = some p) (hready : (k.procTable other).state = .ready) :
    cyclicSteps procMax start p ≤ cyclicSteps procMax start other := by
  obtain ⟨idx, hidx, rfl⟩ := Option.map_eq_some_iff.mp hfind
  have hindex : Fin.ofNat procMax other = other := Fin.ext (Nat.mod_eq_of_lt other.isLt)
  have hfound : ((Fin.ofNat procMax idx : ProcIndex) : ℕ) = idx :=
    Nat.mod_eq_of_lt (cyclicFind_lt hidx)
  rw [hfound]
  refine cyclicFind_steps_le start.isLt other.isLt hidx ?_
  rw [hindex, hready]
  rfl

/-- A call of `schedule` entered with a READY process dispatches one no further away. -/
theorem schedule_steps_le {k : Kernel} {old other : ProcIndex} (hcurrent : k.currentProc = some old)
    (hready : (k.procTable other).state = .ready) :
    ∃ p, (schedule k).2 = some ⟨old, p⟩ ∧ (schedule k).1.currentProc = some p ∧
      cyclicSteps procMax old p ≤ cyclicSteps procMax old other := by
  rcases schedule_cases hcurrent with ⟨p, hfind, hdispatch⟩ | ⟨hnone, -, -⟩
  · refine ⟨p, by rw [hdispatch], by rw [hdispatch]; exact dispatch_currentProc _ _, ?_⟩
    refine nextReady_steps_le hfind ?_
    rw [requeue_state]
    split_ifs
    · rfl
    · exact hready
  · exact absurd hready (hnone other)

/-! ### Runs -/

/-- What may happen between two calls of `schedule`: the part of `sched_tick`, `proc_sleep` and
`proc_exit` before the call, and the calls that make none. -/
inductive Between
  | tick
  | sleep (ms : Word)
  | exit (code : Int32)
  | wakeup (p : ProcIndex)
  | create (kstack : Word) (name : List Byte) (entry : Word)
  | createElf (pages : ElfPages) (entry : Word)
  | send (dst : Pid) (type : Word32) (data : Option (ℕ → Byte)) (len : Word32)
  | recv (out : Option IpcMessage)

/-- The state after it. -/
def Between.perform (entryPoints : EntryPoints) (k : Kernel) : Between → Kernel
  | .tick => countdownAll { k with ticks := k.ticks + 1#64 }
  | .sleep ms =>
    modifyCurrent k fun process ↦ { process with sleepTicks := sleepTicksOf ms, state := .sleeping }
  | .exit code => modifyCurrent k fun process ↦ { process with state := .zombie, exitCode := code }
  | .wakeup p => procWakeup k p
  | .create kstack name entry => (procCreate entryPoints kstack name entry k).2
  | .createElf pages entry => (procCreateElf entryPoints pages entry k).2
  | .send dst type data len => (ipcSend k dst type data len).2
  | .recv out =>
    match ipcRecv k out with
    | .returned _ _ next => next
    -- the call that sleeps is a `sleep` and a call of `schedule`
    | .slept _ _ => k

/-- A call of `schedule`, with the state it is entered in and the switch it makes, or something in
between. -/
inductive RoundEvent
  | schedule (entered : Kernel) (switch : Option ContextSwitch)
  | between (change : Between)

/-- The process that the event dispatches. -/
def RoundEvent.dispatched : RoundEvent → Option ProcIndex
  | .schedule _ switch => switch.map ContextSwitch.new
  | .between _ => none

/-- If the event is a call of `schedule`, the process is READY at its entry. -/
def RoundEvent.ReadyAt (p : ProcIndex) : RoundEvent → Prop
  | .schedule entered _ => (entered.procTable p).state = .ready
  | .between _ => True

/-- Runs from any state of the kernel. -/
def roundSystem (entryPoints : EntryPoints) : TransitionSystem Kernel RoundEvent where
  start _ := True
  step k event next :=
    match event with
    | .schedule entered switch => entered = k ∧ schedule k = (next, switch)
    | .between change => next = change.perform entryPoints k

variable {entryPoints : EntryPoints} {k next first last : Kernel} {p q : ProcIndex}

/-- Nothing in between changes the current process. -/
theorem Between.perform_currentProc (change : Between) :
    (change.perform entryPoints k).currentProc = k.currentProc := by
  have hmodify : ∀ f, (modifyCurrent k f).currentProc = k.currentProc := by
    intro f
    rw [modifyCurrent]
    split <;> rfl
  cases change with
  | tick => rfl
  | sleep ms => exact hmodify _
  | exit code => exact hmodify _
  | wakeup p => exact (procWakeup_frame k p).2.2
  | create kstack name entry =>
    exact (statesKept_procCreate entryPoints k kstack name entry).currentProc_eq
  | createElf pages entry =>
    exact (statesKept_procCreateElf entryPoints k pages entry).currentProc_eq
  | send dst type data len => exact (statesKept_ipcSend k dst type data len).currentProc_eq
  | recv out =>
    rw [perform]
    cases hpass : ipcRecv k out with
    | slept after switch => rfl
    | returned result message after =>
      rcases ipcRecv_returned_cases hpass with ⟨-, rfl⟩ | ⟨p, m, buffer, -, -, -, -, -, rfl⟩
      · rfl
      · exact (statesKept_dequeue k p m buffer).currentProc_eq

/-- Going round from the current entry, `p` comes before `q`. -/
def ComesFirst (p q : ProcIndex) (k : Kernel) : Prop :=
  ∃ current, k.currentProc = some current ∧
    cyclicSteps procMax current p < cyclicSteps procMax current q

/-- While `p` is READY and not dispatched, it still comes before `q`, and `q` is not dispatched. -/
theorem ComesFirst.step {event : RoundEvent} (hfirst : ComesFirst p q k)
    (hstep : (roundSystem entryPoints).step k event next) (hready : event.ReadyAt p) :
    event.dispatched ≠ some q ∧ (event.dispatched ≠ some p → ComesFirst p q next) := by
  obtain ⟨current, hcurrent, hlt⟩ := hfirst
  cases event with
  | between change =>
    refine ⟨nofun, fun _ ↦ ⟨current, ?_, hlt⟩⟩
    rw [show next = change.perform entryPoints k from hstep, change.perform_currentProc, hcurrent]
  | schedule entered switch =>
    obtain ⟨rfl, hschedule⟩ := hstep
    obtain ⟨found, hswitch, hmoved, hle⟩ := schedule_steps_le hcurrent hready
    rw [hschedule] at hswitch hmoved
    cases hswitch
    refine ⟨fun heq ↦ ?_, fun hother ↦ ⟨found, hmoved, ?_⟩⟩
    · obtain rfl : found = q := Option.some.inj heq
      omega
    · have hne : found ≠ p := fun heq ↦ hother (by rw [heq]; rfl)
      have hbefore : cyclicSteps procMax current found < cyclicSteps procMax current p := by
        refine lt_of_le_of_ne hle fun heq ↦ hne (Fin.ext ?_)
        exact cyclicSteps_inj current.isLt found.isLt p.isLt heq
      rw [cyclicSteps_sub current.isLt found.isLt p.isLt hbefore,
        cyclicSteps_sub current.isLt found.isLt q.isLt (hbefore.trans hlt)]
      omega

/-- Along a path on which `p` is READY at every call and not dispatched, it comes before `q`. -/
theorem ComesFirst.path {events : List RoundEvent} (hfirst : ComesFirst p q first)
    (hpath : (roundSystem entryPoints).Path first events last)
    (hready : ∀ event ∈ events, event.ReadyAt p)
    (hother : ∀ event ∈ events, event.dispatched ≠ some p) : ComesFirst p q last := by
  induction hpath with
  | refl => exact hfirst
  | step _ hstep ih =>
    rw [List.forall_mem_append, List.forall_mem_singleton] at hready hother
    exact ((ih hready.1 hother.1).step hstep hready.2).2 hother.2

/-- A call that dispatches a process makes it current. -/
theorem currentProc_of_dispatched {event : RoundEvent}
    (hstep : (roundSystem entryPoints).step k event next)
    (hdispatched : event.dispatched = some q) :
    next.currentProc = some q := by
  cases event with
  | between change => cases hdispatched
  | schedule entered switch =>
    obtain ⟨rfl, hschedule⟩ := hstep
    have hmoved := currentMoved_schedule entered
    obtain ⟨made, rfl, rfl⟩ := Option.map_eq_some_iff.mp hdispatched
    rw [hschedule] at hmoved
    exact hmoved.2

/-- Between two dispatches of `q` no other process was READY at every call after the first, the
second included, and passed over. -/
theorem never_overtaken {before middle : List RoundEvent} {dispatch again : RoundEvent}
    (hrun : (roundSystem entryPoints).Run (before ++ [dispatch] ++ (middle ++ [again])) last)
    (hdispatch : dispatch.dispatched = some q) (hagain : again.dispatched = some q) :
    ¬ ∃ p, p ≠ q ∧ (∀ event ∈ middle ++ [again], event.ReadyAt p) ∧
      ∀ event ∈ middle, event.dispatched ≠ some p := by
  rintro ⟨p, hne, hready, hother⟩
  rw [List.forall_mem_append, List.forall_mem_singleton] at hready
  obtain ⟨origin, -, hpath⟩ := hrun
  obtain ⟨after, hbefore, hafter⟩ := hpath.split
  obtain ⟨entry, -, hstep⟩ := hbefore.last
  obtain ⟨reached, hmiddle, hlast⟩ := hafter.last
  have hcurrent := currentProc_of_dispatched hstep hdispatch
  have hfirst : ComesFirst p q after :=
    ⟨q, hcurrent, cyclicSteps_lt_self p.isLt fun heq ↦ hne (Fin.ext heq)⟩
  exact ((hfirst.path hmiddle hready.1 hother).step hlast hready.2).1 hagain

/-- The state after a number of calls of `schedule`. -/
def rescheduled (n : ℕ) : Kernel :=
  (fun k ↦ (schedule k).1)^[n] twoReady

/-- A call of `schedule` as an event. -/
def scheduleEvent (k : Kernel) : RoundEvent :=
  .schedule k (schedule k).2

/-- Two processes take turns: between two turns of the shell no other is passed over. -/
theorem never_overtaken_turns :
    (scheduleEvent (rescheduled 0)).dispatched = some 1 ∧
      (scheduleEvent (rescheduled 1)).dispatched = some 0 ∧
      ¬ ∃ p, p ≠ 1 ∧
        (∀ event ∈ [scheduleEvent (rescheduled 1)] ++ [scheduleEvent (rescheduled 2)],
          event.ReadyAt p) ∧
        ∀ event ∈ [scheduleEvent (rescheduled 1)], event.dispatched ≠ some p := by
  have hstep : ∀ k, (roundSystem ⟨1#64, 2#64⟩).step k (scheduleEvent k) (schedule k).1 :=
    fun _ ↦ ⟨rfl, rfl⟩
  have hstart : (roundSystem ⟨1#64, 2#64⟩).start (rescheduled 0) := trivial
  have hrun : (roundSystem ⟨1#64, 2#64⟩).Run ([] ++ [scheduleEvent (rescheduled 0)] ++
      ([scheduleEvent (rescheduled 1)] ++ [scheduleEvent (rescheduled 2)]))
        (schedule (rescheduled 2)).1 :=
    (((TransitionSystem.Run.start hstart).step (hstep _)).step (hstep _)).step (hstep _)
  exact ⟨by decide, by decide, never_overtaken hrun (by decide) (by decide)⟩

end Colix.Proc
