import Colix.Foundation.CyclicScan
import Colix.Kernel

/-!
# The scheduler

`schedule`, `sched_tick` and the calls that reach them, from `kernel/proc/proc.c`. `schedule`
returns the `switch_context` call it makes, if any: what it saves into and what it loads. Everything
the kernel variables see of a call happens before that switch, so a call is one state change.
`schedule_cases` says all that `schedule` can do.
-/

set_option autoImplicit false
set_option relaxedAutoImplicit false

namespace Colix.Proc

open Foundation

/-- A call `switch_context(&old->context, &p->context)`. -/
structure ContextSwitch where
  old : ProcIndex
  new : ProcIndex
  deriving DecidableEq

/-- A write to `*current_proc`. -/
def modifyCurrent (k : Kernel) (f : Process → Process) : Kernel :=
  match k.currentProc with
  | none => k
  | some current => k.modify current f

/-- `proc_find`. -/
def procFind (k : Kernel) (pid : Pid) : Option ProcIndex :=
  (List.finRange procMax).find? fun i ↦
    (k.procTable i).state != .unused && (k.procTable i).pid == pid

/-- The round-robin choice of `schedule`: the first READY entry after `start`, `start` itself
last. -/
def nextReady (k : Kernel) (start : ProcIndex) : Option ProcIndex :=
  (cyclicFind procMax (start + 1) fun idx ↦
    (k.procTable (Fin.ofNat procMax idx)).state == .ready).map (Fin.ofNat procMax)

/-- The branch of `schedule` that found the READY entry `p`. -/
def dispatch (k : Kernel) (p : ProcIndex) : Kernel :=
  let k := { k with currentProc := some p }
  let k := k.modify p fun process ↦ { process with state := .running }
  let k := { k with tssRsp0 := (k.procTable p).kernelRsp }
  if (k.procTable p).isUser && !(k.procTable p).started then
    k.modify p fun process ↦ { process with started := true }
  else k

/-- `schedule`. -/
def schedule (k : Kernel) : Kernel × Option ContextSwitch :=
  match k.currentProc with
  | none => (k, none)
  | some old =>
    let k :=
      if (k.procTable old).state = .running then
        k.modify old fun process ↦ { process with state := .ready }
      else k
    match nextReady k old with
    | some p => (dispatch k p, some ⟨old, p⟩)
    | none =>
      -- no READY entry: the current process goes on
      if (k.procTable old).state = .ready then
        (k.modify old fun process ↦ { process with state := .running }, none)
      else (k, none)

/-- `proc_exit`, up to the switch to another process. -/
def procExit (k : Kernel) (code : Int32) : Kernel × Option ContextSwitch :=
  match k.currentProc with
  | none => (k, none)
  | some current =>
    schedule (k.modify current fun process ↦ { process with state := .zombie, exitCode := code })

/-- `proc_yield`. -/
def procYield (k : Kernel) : Kernel × Option ContextSwitch :=
  schedule k

/-- The tick count of `proc_sleep(ms)`, in 64 bits. -/
def sleepTicksOf (ms : Word) : Word :=
  if ms * pitHz / 1000#64 = 0#64 then 1#64 else ms * pitHz / 1000#64

/-- `proc_sleep`, up to the switch to another process. -/
def procSleep (k : Kernel) (ms : Word) : Kernel × Option ContextSwitch :=
  match k.currentProc with
  | none => (k, none)
  | some current =>
    schedule (k.modify current fun process ↦
      { process with sleepTicks := sleepTicksOf ms, state := .sleeping })

/-- `proc_wakeup`. -/
def procWakeup (k : Kernel) (p : ProcIndex) : Kernel :=
  if (k.procTable p).state = .sleeping then
    k.modify p fun process ↦ { process with state := .ready }
  else k

/-- One entry's turn in the countdown loop of `sched_tick`. -/
def countdown (process : Process) : Process :=
  if process.state = .sleeping then
    let process :=
      if 0#64 < process.sleepTicks then
        { process with sleepTicks := process.sleepTicks - 1#64 }
      else process
    if process.sleepTicks = 0#64 then { process with state := .ready } else process
  else process

/-- The countdown loop of `sched_tick`, which visits each entry once. -/
def countdownAll (k : Kernel) : Kernel :=
  { k with procTable := fun i ↦ countdown (k.procTable i) }

/-- `sched_tick`. -/
def schedTick (k : Kernel) : Kernel × Option ContextSwitch :=
  let k := countdownAll k
  if k.currentProc.isSome && k.ticks % 10#64 == 0#64 then schedule k else (k, none)

/-- The timer interrupt of `interrupt_dispatch`: `ticks++`, then `sched_tick`. -/
def timerInterrupt (k : Kernel) : Kernel × Option ContextSwitch :=
  schedTick { k with ticks := k.ticks + 1#64 }

/-! ### What `schedule` can do -/

/-- The state in which `schedule` looks for a READY entry. -/
def requeue (k : Kernel) (old : ProcIndex) : Kernel :=
  if (k.procTable old).state = .running then
    k.modify old fun process ↦ { process with state := .ready }
  else k

theorem requeue_state (k : Kernel) (old i : ProcIndex) :
    ((requeue k old).procTable i).state =
      if i = old ∧ (k.procTable old).state = .running then .ready else (k.procTable i).state := by
  rw [requeue]
  by_cases heq : i = old
  · subst heq
    split_ifs with hrunning
    · simp
    · simp_all
    · simp_all
    · rfl
  · split_ifs with hrunning
    · exact absurd ‹_ ∧ _›.1 heq
    · rw [Kernel.modify_procTable_of_ne _ _ heq]
    · exact absurd ‹_ ∧ _›.1 heq
    · rfl

theorem dispatch_state (k : Kernel) (p i : ProcIndex) :
    ((dispatch k p).procTable i).state = if i = p then .running else (k.procTable i).state := by
  have hstate : ∀ k' : Kernel, ((k'.modify p fun process ↦
      { process with started := true }).procTable i).state = (k'.procTable i).state := fun k' ↦
    k'.modify_field p i _ Process.state fun _ ↦ rfl
  have hmarked : ((dispatch k p).procTable i).state =
      ((k.modify p fun process ↦ { process with state := .running }).procTable i).state := by
    simp only [dispatch]
    split_ifs
    · exact hstate _
    · rfl
  rw [hmarked]
  by_cases heq : i = p
  · rw [heq, if_pos rfl, Kernel.modify_procTable_self]
  · rw [if_neg heq, Kernel.modify_procTable_of_ne _ _ heq]

theorem dispatch_currentProc (k : Kernel) (p : ProcIndex) :
    (dispatch k p).currentProc = some p := by
  simp only [dispatch]
  split_ifs <;> rfl

/-- The entry `nextReady` finds is READY. -/
theorem state_of_nextReady {k : Kernel} {start p : ProcIndex} (hfind : nextReady k start = some p) :
    (k.procTable p).state = .ready := by
  obtain ⟨idx, hidx, rfl⟩ := Option.map_eq_some_iff.mp hfind
  simpa using cyclicFind_accept hidx

/-- `nextReady` fails only when no entry is READY. -/
theorem state_ne_of_nextReady {k : Kernel} {start : ProcIndex} (hfind : nextReady k start = none)
    (i : ProcIndex) : (k.procTable i).state ≠ .ready := by
  rw [nextReady, Option.map_eq_none_iff, cyclicFind_eq_none_iff] at hfind
  have hreject := hfind i i.isLt
  have hindex : Fin.ofNat procMax i = i := Fin.ext (Nat.mod_eq_of_lt i.isLt)
  rw [hindex] at hreject
  simpa using hreject

/-- `schedule` with a current process. -/
theorem schedule_of_current {k : Kernel} {old : ProcIndex} (hcurrent : k.currentProc = some old) :
    schedule k =
      match nextReady (requeue k old) old with
      | some p => (dispatch (requeue k old) p, some ⟨old, p⟩)
      | none =>
        if ((requeue k old).procTable old).state = .ready then
          ((requeue k old).modify old fun process ↦ { process with state := .running }, none)
        else (requeue k old, none) := by
  rw [schedule, hcurrent]
  rfl

/-- All that `schedule` can do with a current process: dispatch a READY entry, or, with no READY
entry and the current process neither RUNNING nor READY, change nothing. -/
theorem schedule_cases {k : Kernel} {old : ProcIndex} (hcurrent : k.currentProc = some old) :
    (∃ p, nextReady (requeue k old) old = some p ∧
        schedule k = (dispatch (requeue k old) p, some ⟨old, p⟩)) ∨
      ((∀ i, (k.procTable i).state ≠ .ready) ∧ (k.procTable old).state ≠ .running ∧
        schedule k = (k, none)) := by
  have hschedule := schedule_of_current hcurrent
  cases hfind : nextReady (requeue k old) old with
  | some p =>
    left
    exact ⟨p, rfl, by rw [hschedule, hfind]⟩
  | none =>
    right
    have hnone := state_ne_of_nextReady hfind
    have hnotRunning : (k.procTable old).state ≠ .running := by
      intro hrunning
      exact hnone old (by rw [requeue_state, if_pos ⟨rfl, hrunning⟩])
    have hsame : requeue k old = k := by rw [requeue, if_neg hnotRunning]
    rw [hsame] at hnone
    refine ⟨hnone, hnotRunning, ?_⟩
    rw [hschedule, hfind, hsame]
    exact if_neg (hnone old)

/-- A field other than `state` and `started` is unchanged by `schedule` in every entry. -/
theorem schedule_field {α : Type*} (field : Process → α)
    (hstate : ∀ process state, field { process with state := state } = field process)
    (hstarted : ∀ process started, field { process with started := started } = field process)
    (k : Kernel) (i : ProcIndex) :
    field ((schedule k).1.procTable i) = field (k.procTable i) := by
  cases hcurrent : k.currentProc with
  | none => rw [schedule, hcurrent]
  | some old =>
    have hrequeue : field ((requeue k old).procTable i) = field (k.procTable i) := by
      rw [requeue]
      split_ifs
      · exact k.modify_field old i _ field fun _ ↦ hstate _ _
      · rfl
    rcases schedule_cases hcurrent with ⟨p, -, hdispatch⟩ | ⟨-, -, hsame⟩
    · rw [hdispatch, ← hrequeue]
      simp only [dispatch]
      split_ifs
      · rw [Kernel.modify_field _ p i _ field fun _ ↦ hstarted _ _]
        exact Kernel.modify_field _ p i _ field fun _ ↦ hstate _ _
      · exact Kernel.modify_field _ p i _ field fun _ ↦ hstate _ _
    · rw [hsame]

/-- `schedule` leaves the message pool, the clock and the pid counter alone. -/
theorem schedule_frame (k : Kernel) :
    (schedule k).1.msgPool = k.msgPool ∧ (schedule k).1.msgUsed = k.msgUsed ∧
      (schedule k).1.ticks = k.ticks ∧ (schedule k).1.nextPid = k.nextPid := by
  cases hcurrent : k.currentProc with
  | none => simp [schedule, hcurrent]
  | some old =>
    rcases schedule_cases hcurrent with ⟨p, -, hdispatch⟩ | ⟨-, -, hsame⟩
    · rw [hdispatch]
      simp only [dispatch, requeue]
      split_ifs <;> exact ⟨rfl, rfl, rfl, rfl⟩
    · rw [hsame]
      exact ⟨rfl, rfl, rfl, rfl⟩

end Colix.Proc
