import Colix.Arch.Interrupts
import Colix.Proc.TimerPreemption

/-!
# Whose stack a context is saved from

Between `current_proc = p` and `switch_context`, `current_proc` is not the process whose stack the
processor is on. A timer interrupt there whose `sched_tick` calls `schedule` takes `p` for the
process to suspend, and saves the running stack into `p`'s context.

`OwnerInvariant` holds as long as no `sched_tick` does so: whoever is suspended has its own stack
saved, as it left it. `stacks_owned_run` is the result, for every way of letting the timer in.
-/

set_option autoImplicit false
set_option relaxedAutoImplicit false

namespace Colix.Proc

open Foundation

/-! ### The calls of `schedule` on a stack -/

/-- The variable `old`. -/
def ScheduleStage.old : ScheduleStage → Option ProcIndex
  | .scan old _ => some old
  | .setCurrent old _ => some old
  | .setRunning old _ => some old
  | .setRsp0 old _ => some old
  | .setStarted old _ => some old
  | .switch old _ => some old
  | .noneReady old => some old
  | _ => none

/-- The process `schedule` has made current and not yet switched to. -/
def ScheduleStage.pending : ScheduleStage → Option ProcIndex
  | .setRunning _ p => some p
  | .setRsp0 _ p => some p
  | .setStarted _ p => some p
  | .switch _ p => some p
  | _ => none

/-- The process `schedule` has found READY. -/
def ScheduleStage.chosen : ScheduleStage → Option ProcIndex
  | .setCurrent _ p => some p
  | stage => stage.pending

/-- The calls of `schedule` in progress on a stack, the latest first. -/
def Stack.calls (stack : Stack) : List ScheduleCall :=
  (stack.handlers.filterMap fun handler ↦ handler.stage.scheduleCall) ++
    (stack.call.bind CallStage.scheduleCall).toList

/-- The call whose statement is next is the latest one. -/
theorem Stack.calls_of_scheduling {stack : Stack} {call : ScheduleCall}
    (hcall : stack.scheduling = some call) : ∃ rest, stack.calls = call :: rest := by
  obtain ⟨base, made, _ | ⟨handler, handlers⟩⟩ := stack
  · have hmade : made.bind CallStage.scheduleCall = some call := hcall
    exact ⟨[], by simp [calls, hmade]⟩
  · have hhandler : handler.stage.scheduleCall = some call := hcall
    exact ⟨_, by rw [calls, List.filterMap_cons, hhandler, List.cons_append]⟩

/-! ### The property -/

/-- Each `switch_context(&old->context, ..)` is executed on the stack of `old`, a context is only
saved from its own process's stack, and a suspended process goes on exactly where its stack
stands. -/
structure StacksOwned (m : Machine) : Prop where
  switches : ∀ call old p, m.stack.scheduling = some call → call.stage = .switch old p →
    old = m.running
  contexts : ∀ i context, m.saved i = some context → context.owner = i
  resumes : ∀ i, i ≠ m.running → (m.kernel.procTable i).state ≠ .unused →
    m.saved i = some ⟨i, m.stackOf i⟩

/-- The step is not a call of `schedule` by `sched_tick` on top of a `schedule` that has made
another process current and not yet switched to it. -/
def NoNestedSchedule (m : Machine) (event : MachineEvent) : Prop :=
  ∀ handler rest, event = .statement → m.stack.handlers = handler :: rest →
    handler.stage = .test → (m.kernel.currentProc.isSome && m.kernel.ticks % 10#64 == 0#64) = true →
      ∀ call ∈ m.stack.calls, ∀ p ∈ call.stage.pending, p = m.running

def HandlerStage.isTest : HandlerStage → Bool
  | .test => true
  | _ => false

/-- `NoNestedSchedule` as a computation. -/
def noNestedSchedule (m : Machine) (event : MachineEvent) : Bool :=
  !(event.isStatement && (m.stack.handlers.head?.any fun handler ↦ handler.stage.isTest) &&
      (m.kernel.currentProc.isSome && m.kernel.ticks % 10#64 == 0#64)) ||
    m.stack.calls.all fun call ↦ call.stage.pending.all fun p ↦ p == m.running

theorem noNestedSchedule_iff {m : Machine} {event : MachineEvent} :
    noNestedSchedule m event = true ↔ NoNestedSchedule m event := by
  have hall : (m.stack.calls.all fun call ↦ call.stage.pending.all fun p ↦ p == m.running) = true ↔
      ∀ call ∈ m.stack.calls, ∀ p ∈ call.stage.pending, p = m.running := by
    simp [Option.all_eq_true]
  constructor
  · rintro hnested handler rest rfl hhandlers hstage hdue
    refine hall.mp ?_
    simpa [noNestedSchedule, MachineEvent.isStatement, hhandlers, hstage, HandlerStage.isTest,
      hdue] using hnested
  · intro hnested
    rw [noNestedSchedule, Bool.or_eq_true, hall, or_iff_not_imp_left]
    intro hfires
    rw [Bool.not_eq_true', Bool.not_eq_false, Bool.and_eq_true, Bool.and_eq_true] at hfires
    obtain ⟨⟨hevent, hhead⟩, hdue⟩ := hfires
    cases event <;> cases hevent
    cases hhandlers : m.stack.handlers with
    | nil =>
      rw [hhandlers] at hhead
      cases hhead
    | cons handler rest =>
      refine hnested handler rest rfl hhandlers ?_ hdue
      rw [hhandlers] at hhead
      revert hhead
      cases hstage : handler.stage <;> simp [hstage, HandlerStage.isTest]

instance (m : Machine) (event : MachineEvent) : Decidable (NoNestedSchedule m event) :=
  decidable_of_iff _ noNestedSchedule_iff

/-! ### The invariant -/

/-- A call of `schedule` on the stack of `t` that suspends `t`, and has not made another process
current. -/
structure Steady (k : Kernel) (t : ProcIndex) (call : ScheduleCall) : Prop where
  old_eq : ∀ old ∈ call.stage.old, old = t
  pending_eq : ∀ p ∈ call.stage.pending, p = t
  chosen_used : ∀ p ∈ call.stage.chosen, InUse k p

/-- The latest call of `schedule` on the stack of `t` has made another process current. -/
structure Leaving (k : Kernel) (t : ProcIndex) (call : ScheduleCall) (p : ProcIndex) : Prop where
  old_eq : call.stage.old = some t
  pending_eq : call.stage.pending = some p
  used : InUse k p
  ne : p ≠ t
  currentProc_eq : k.currentProc = some p

/-- The calls of `schedule` on the running stack, that of `t`. -/
inductive RunningCalls (k : Kernel) (t : ProcIndex) (calls : List ScheduleCall) : Prop
  | steady (hcurrent : k.currentProc = some t) (hsteady : ∀ call ∈ calls, Steady k t call)
  | leaving (call : ScheduleCall) (rest : List ScheduleCall) (p : ProcIndex)
      (hcalls : calls = call :: rest) (hleaving : Leaving k t call p)
      (hsteady : ∀ call ∈ rest, Steady k t call)

/-- Everyone but the running process is suspended in its own context. -/
structure OwnerInvariant (m : Machine) : Prop where
  used : InUse m.kernel m.running
  owner : ∀ i context, m.saved i = some context → context.owner = i
  resumes : ∀ i, i ≠ m.running → InUse m.kernel i → m.saved i = some ⟨i, m.stackOf i⟩
  others : ∀ i, i ≠ m.running → InUse m.kernel i →
    ∀ call ∈ (m.stackOf i).calls, Steady m.kernel i call
  calls : RunningCalls m.kernel m.running m.stack.calls

variable {k next : Kernel} {m after : Machine} {t p i : ProcIndex} {call : ScheduleCall}
  {calls rest : List ScheduleCall}

theorem Steady.kept (hsteady : Steady k t call) (hused : UsedKept k next) : Steady next t call :=
  ⟨hsteady.old_eq, hsteady.pending_eq, fun p hp ↦ hused p (hsteady.chosen_used p hp)⟩

theorem Leaving.kept (hleaving : Leaving k t call p) (hused : UsedKept k next)
    (hcurrent : next.currentProc = k.currentProc) : Leaving next t call p :=
  ⟨hleaving.old_eq, hleaving.pending_eq, hused p hleaving.used, hleaving.ne,
    hcurrent.trans hleaving.currentProc_eq⟩

theorem RunningCalls.kept (hcalls : RunningCalls k t calls) (hused : UsedKept k next)
    (hcurrent : next.currentProc = k.currentProc) : RunningCalls next t calls := by
  cases hcalls with
  | steady hsome hsteady =>
    exact .steady (hcurrent.trans hsome) fun call hcall ↦ (hsteady call hcall).kept hused
  | leaving call rest p hcalls hleaving hsteady =>
    exact .leaving call rest p hcalls (hleaving.kept hused hcurrent) fun call hcall ↦
      (hsteady call hcall).kept hused

/-- A call of `schedule` at its start. -/
theorem Steady.start (flag : Bool) : Steady k t ⟨flag, .start⟩ :=
  ⟨nofun, nofun, nofun⟩

/-- A call of `schedule` on top of calls that have made nobody else current. -/
theorem RunningCalls.cons (hcalls : RunningCalls k t calls) (flag : Bool)
    (hpending : ∀ call ∈ calls, ∀ p ∈ call.stage.pending, p = t) :
    RunningCalls k t (⟨flag, .start⟩ :: calls) := by
  cases hcalls with
  | steady hcurrent hsteady =>
    exact .steady hcurrent (List.forall_mem_cons.mpr ⟨.start flag, hsteady⟩)
  | leaving call rest p hcalls hleaving hsteady =>
    refine absurd (hpending call ?_ p hleaving.pending_eq) hleaving.ne
    rw [hcalls]
    exact List.mem_cons_self

/-! ### Statements of `schedule` -/

/-- All that a statement of `schedule` that goes on can do to its variables and to `current_proc`:
nothing, take `current_proc` for `old`, pass a process that is not READY, choose one that is, or
make the chosen one current. -/
theorem scheduleStatement_goto {stage later : ScheduleStage}
    (hstatement : scheduleStatement k stage = (next, .goto later)) :
    (stage.pending = none ∧ next.currentProc = k.currentProc ∧ later.chosen = none ∧
        (later.old = none ∨ later.old = k.currentProc ∨ later.old = stage.old)) ∨
      (∃ p, stage.pending = none ∧ next = k ∧ later.old = stage.old ∧ later.pending = none ∧
        later.chosen = some p ∧ (k.procTable p).state = .ready) ∨
      (∃ old p, stage = .setCurrent old p ∧ later = .setRunning old p ∧
        next.currentProc = some p) ∨
      next.currentProc = k.currentProc ∧ later.old = stage.old ∧ later.pending = stage.pending ∧
        later.chosen = stage.chosen := by
  cases stage with
  | start =>
    rw [scheduleStatement] at hstatement
    split_ifs at hstatement <;> cases hstatement
    exact Or.inl ⟨rfl, rfl, rfl, Or.inl rfl⟩
  | requeueTest =>
    rw [scheduleStatement] at hstatement
    split_ifs at hstatement <;> cases hstatement <;> exact Or.inl ⟨rfl, rfl, rfl, Or.inl rfl⟩
  | requeue =>
    cases hstatement
    exact Or.inl ⟨rfl, currentProc_modifyCurrent _, rfl, Or.inl rfl⟩
  | takeOld =>
    rw [scheduleStatement] at hstatement
    split at hstatement <;> cases hstatement
    next hcurrent => exact Or.inl ⟨rfl, rfl, rfl, Or.inr (Or.inl hcurrent.symm)⟩
  | scan old n =>
    dsimp only [scheduleStatement] at hstatement
    split_ifs at hstatement with hle hready <;> cases hstatement
    · exact Or.inr (Or.inl ⟨_, rfl, rfl, rfl, rfl, rfl, hready⟩)
    · exact Or.inl ⟨rfl, rfl, rfl, Or.inr (Or.inr rfl)⟩
    · exact Or.inl ⟨rfl, rfl, rfl, Or.inr (Or.inr rfl)⟩
  | setCurrent old p =>
    cases hstatement
    exact Or.inr (Or.inr (Or.inl ⟨old, p, rfl, rfl, rfl⟩))
  | setRunning old p =>
    cases hstatement
    exact Or.inr (Or.inr (Or.inr ⟨rfl, rfl, rfl, rfl⟩))
  | setRsp0 old p =>
    cases hstatement
    exact Or.inr (Or.inr (Or.inr ⟨rfl, rfl, rfl, rfl⟩))
  | setStarted old p =>
    dsimp only [scheduleStatement] at hstatement
    split_ifs at hstatement <;> cases hstatement <;>
      exact Or.inr (Or.inr (Or.inr ⟨rfl, rfl, rfl, rfl⟩))
  | switch old p => cases hstatement
  | resumed => cases hstatement
  | noneReady old => cases hstatement

/-- `schedule` returns with `current_proc` as it is, and not with another process made current. -/
theorem scheduleStatement_returned {stage : ScheduleStage}
    (hstatement : scheduleStatement k stage = (next, .returned)) :
    stage.pending = none ∧ next.currentProc = k.currentProc := by
  cases stage with
  | start =>
    rw [scheduleStatement] at hstatement
    split_ifs at hstatement <;> cases hstatement
    exact ⟨rfl, rfl⟩
  | takeOld =>
    rw [scheduleStatement] at hstatement
    split at hstatement <;> cases hstatement
    exact ⟨rfl, rfl⟩
  | scan old n =>
    dsimp only [scheduleStatement] at hstatement
    split_ifs at hstatement <;> cases hstatement
  | resumed =>
    cases hstatement
    exact ⟨rfl, rfl⟩
  | noneReady old =>
    dsimp only [scheduleStatement] at hstatement
    split_ifs at hstatement <;> cases hstatement <;> exact ⟨rfl, rfl⟩
  | _ => cases hstatement

/-- A process that `schedule` has made current was chosen. -/
theorem ScheduleStage.pending_eq_none {stage : ScheduleStage} (hnone : stage.chosen = none) :
    stage.pending = none := by
  cases stage <;> first | rfl | cases hnone

theorem ScheduleStage.chosen_eq {stage : ScheduleStage} (hpending : stage.pending = some p) :
    stage.chosen = some p := by
  cases stage <;> first | exact hpending | cases hpending

/-- `schedule` goes on from a statement, with everyone before it steady. -/
theorem RunningCalls.goto_steady {later : ScheduleStage} (hcurrent : k.currentProc = some t)
    (hsteady : Steady k t call) (hrest : ∀ call ∈ rest, Steady next t call)
    (hused : UsedKept k next)
    (hstatement : scheduleStatement k call.stage = (next, .goto later)) :
    RunningCalls next t (⟨call.flag, later⟩ :: rest) := by
  obtain ⟨hold, hpending, hchosen⟩ := hsteady
  rcases scheduleStatement_goto hstatement with ⟨-, hsame, hnone, hfrom⟩ |
    ⟨p, -, hnext, hsame, hnone, hsome, hready⟩ | ⟨old, p, hwas, hnow, hmade⟩ |
    ⟨hsame, hkept, hpend, hfound⟩
  · refine .steady (hsame.trans hcurrent) (List.forall_mem_cons.mpr ⟨⟨?_, ?_, ?_⟩, hrest⟩)
    · intro old hlater
      rcases hfrom with hfrom | hfrom | hfrom
      · rw [hfrom] at hlater
        cases hlater
      · rw [hfrom, hcurrent] at hlater
        exact (Option.some.inj hlater).symm
      · exact hold old (hfrom ▸ hlater)
    · rw [ScheduleStage.pending_eq_none hnone]
      exact nofun
    · rw [hnone]
      exact nofun
  · refine .steady (hnext ▸ hcurrent) (List.forall_mem_cons.mpr ⟨⟨?_, ?_, ?_⟩, hrest⟩)
    · rwa [hsame]
    · rw [hnone]
      exact nofun
    · intro other hother
      rw [hsome] at hother
      obtain rfl := Option.some.inj hother
      exact hused p (.of_ready hready)
  · rw [hwas] at hold hchosen
    have hp := hused p (hchosen p rfl)
    obtain rfl : old = t := hold old rfl
    subst hnow
    by_cases heq : p = old
    · refine .steady (heq ▸ hmade) (List.forall_mem_cons.mpr ⟨⟨?_, ?_, ?_⟩, hrest⟩)
      · rintro _ ⟨⟩
        rfl
      · rintro _ ⟨⟩
        exact heq
      · rintro _ ⟨⟩
        exact hp
    · exact .leaving _ rest p rfl ⟨rfl, rfl, hp, heq, hmade⟩ hrest
  · refine .steady (hsame.trans hcurrent) (List.forall_mem_cons.mpr ⟨⟨?_, ?_, ?_⟩, hrest⟩)
    · rwa [hkept]
    · rwa [hpend]
    · rw [hfound]
      exact fun p hp ↦ hused p (hchosen p hp)

/-- `schedule` goes on from a statement. -/
theorem RunningCalls.goto {later : ScheduleStage} (hcalls : RunningCalls k t (call :: rest))
    (hstatement : scheduleStatement k call.stage = (next, .goto later)) :
    RunningCalls next t (⟨call.flag, later⟩ :: rest) := by
  have hused : UsedKept k next := by
    have hkept := usedKept_scheduleStatement k call.stage
    rwa [hstatement] at hkept
  cases hcalls with
  | steady hcurrent hsteady =>
    obtain ⟨hcall, hrest⟩ := List.forall_mem_cons.mp hsteady
    exact .goto_steady hcurrent hcall (fun call hmem ↦ (hrest call hmem).kept hused) hused
      hstatement
  | leaving leaver others p hcons hleaving hsteady =>
    obtain ⟨rfl, rfl⟩ := List.cons_eq_cons.mp hcons
    obtain ⟨hold, hpending, hinuse, hne, hmade⟩ := hleaving
    rcases scheduleStatement_goto hstatement with ⟨hnone, -⟩ | ⟨_, hnone, -⟩ | ⟨_, _, hwas, -⟩ |
      ⟨hsame, hkept, hpend, -⟩
    · rw [hnone] at hpending
      cases hpending
    · rw [hnone] at hpending
      cases hpending
    · rw [hwas] at hpending
      cases hpending
    · exact .leaving _ rest p rfl
        ⟨hkept.trans hold, hpend.trans hpending, hused p hinuse, hne, hsame.trans hmade⟩
        fun call hmem ↦ (hsteady call hmem).kept hused

/-- The process the latest call of `schedule` has chosen is in use. -/
theorem RunningCalls.chosen_used (hcalls : RunningCalls k t (call :: rest)) :
    ∀ p ∈ call.stage.chosen, InUse k p := by
  cases hcalls with
  | steady hcurrent hsteady => exact (List.forall_mem_cons.mp hsteady).1.chosen_used
  | leaving leaver others q hcons hleaving hsteady =>
    obtain ⟨rfl, rfl⟩ := List.cons_eq_cons.mp hcons
    intro p hp
    rw [ScheduleStage.chosen_eq hleaving.pending_eq] at hp
    exact Option.some.inj hp ▸ hleaving.used

/-- `schedule` returns. -/
theorem RunningCalls.returned (hcalls : RunningCalls k t (call :: rest))
    (hstatement : scheduleStatement k call.stage = (next, .returned)) :
    RunningCalls next t rest := by
  have hused : UsedKept k next := by
    have hkept := usedKept_scheduleStatement k call.stage
    rwa [hstatement] at hkept
  have hnone := scheduleStatement_returned hstatement
  cases hcalls with
  | steady hcurrent hsteady =>
    exact .steady (hnone.2.trans hcurrent) fun call hmem ↦
      (hsteady call (List.mem_cons_of_mem _ hmem)).kept hused
  | leaving leaver others p hcons hleaving hsteady =>
    obtain ⟨rfl, rfl⟩ := List.cons_eq_cons.mp hcons
    have hpending := hleaving.pending_eq
    rw [hnone.1] at hpending
    cases hpending

/-- `schedule` comes to `switch_context`: it suspends `t`, and the process it goes on with is
current. -/
theorem RunningCalls.switched {old : ProcIndex} (hcalls : RunningCalls k t (call :: rest))
    (hstage : call.stage = .switch old p) :
    old = t ∧ InUse k p ∧ k.currentProc = some p ∧ ∀ call ∈ rest, Steady k t call := by
  cases hcalls with
  | steady hcurrent hsteady =>
    obtain ⟨⟨hold, hpending, hchosen⟩, hrest⟩ := List.forall_mem_cons.mp hsteady
    rw [hstage] at hold hpending hchosen
    obtain rfl : p = t := hpending p rfl
    exact ⟨hold old rfl, hchosen p rfl, hcurrent, hrest⟩
  | leaving leaver others q hcons hleaving hsteady =>
    obtain ⟨rfl, rfl⟩ := List.cons_eq_cons.mp hcons
    obtain ⟨hold, hpending, hinuse, hne, hmade⟩ := hleaving
    rw [hstage] at hold hpending
    cases hold
    cases hpending
    exact ⟨rfl, hinuse, hmade, hsteady⟩

/-! ### Steps of the machine -/

/-- The process `schedule` takes for the one to suspend is in use. -/
theorem RunningCalls.current (hcalls : RunningCalls k t calls) (hused : InUse k t) :
    CurrentInUse k := by
  cases hcalls with
  | steady hcurrent hsteady =>
    intro i hi
    rw [hcurrent] at hi
    exact Option.some.inj hi ▸ hused
  | leaving call rest p hcons hleaving hsteady =>
    intro i hi
    rw [hleaving.currentProc_eq] at hi
    exact Option.some.inj hi ▸ hleaving.used

theorem unusedKept_scheduleStatement {stage : ScheduleStage} (hcurrent : CurrentInUse k)
    (hchosen : ∀ p ∈ stage.chosen, InUse k p) :
    UnusedKept k (scheduleStatement k stage).1 := by
  have hsame : UnusedKept k k := fun _ h ↦ h
  cases stage with
  | requeue => exact unusedKept_modifyCurrent _ hcurrent
  | takeOld =>
    rw [scheduleStatement]
    split <;> exact hsame
  | scan old n =>
    dsimp only [scheduleStatement]
    split_ifs <;> exact hsame
  | setRunning old p =>
    dsimp only [scheduleStatement]
    exact unusedKept_modify p _ (hchosen p rfl)
  | setStarted old p =>
    dsimp only [scheduleStatement]
    split_ifs
    · exact unusedKept_modify p _ (hchosen p rfl)
    · exact hsame
  | noneReady old =>
    dsimp only [scheduleStatement]
    split_ifs with hready
    · exact unusedKept_modify old _ (.of_ready hready)
    · exact hsame
  | _ => exact hsame

/-- A step that moves only the running process. -/
theorem OwnerInvariant.moved (hinv : OwnerInvariant m) (hrunning : after.running = m.running)
    (hsaved : after.saved = m.saved)
    (hstacks : ∀ i, i ≠ m.running → after.stackOf i = m.stackOf i)
    (hused : UsedKept m.kernel after.kernel) (hunused : UnusedKept m.kernel after.kernel)
    (hcalls : RunningCalls after.kernel m.running after.stack.calls) : OwnerInvariant after where
  used := by
    rw [hrunning]
    exact hused _ hinv.used
  owner i context hcontext := by
    rw [hsaved] at hcontext
    exact hinv.owner i context hcontext
  resumes i hne hi := by
    rw [hrunning] at hne
    rw [hsaved, hstacks i hne]
    exact hinv.resumes i hne (hunused i hi)
  others i hne hi call hcall := by
    rw [hrunning] at hne
    rw [hstacks i hne] at hcall
    exact (hinv.others i hne (hunused i hi) call hcall).kept hused
  calls := by
    rw [hrunning]
    exact hcalls

/-- A step that leaves the process table's use and `current_proc` alone and makes no call of
`schedule`. -/
theorem OwnerInvariant.quiet (hinv : OwnerInvariant m) {stack : Stack} {flag service : Bool}
    (hused : UsedKept m.kernel k) (hunused : UnusedKept m.kernel k)
    (hcurrent : k.currentProc = m.kernel.currentProc) (hcalls : stack.calls = m.stack.calls) :
    OwnerInvariant ({ m with kernel := k, interruptFlag := flag, inService := service }.setStack
      stack) := by
  refine hinv.moved rfl rfl (fun i hne ↦ Function.update_of_ne hne ..) hused hunused ?_
  rw [Machine.setStack_stack, hcalls]
  exact hinv.calls.kept hused hcurrent

/-- The switch of `schedule`. -/
theorem OwnerInvariant.switch (hinv : OwnerInvariant m) {old : ProcIndex} {stack : Stack}
    (hcalls : m.stack.calls = call :: rest) (hstage : call.stage = .switch old p)
    (hstack : stack.calls = ⟨call.flag, .resumed⟩ :: rest)
    (hswitch : (m.setStack stack).switch old p = some after) : OwnerInvariant after := by
  have hrunning := hinv.calls
  rw [hcalls] at hrunning
  obtain ⟨rfl, hp, hcurrent, hrest⟩ := hrunning.switched hstage
  have hsaved : ∀ i, InUse m.kernel i →
      Function.update m.saved m.running (some ⟨m.running, (m.setStack stack).stack⟩) i =
        some ⟨i, (m.setStack stack).stackOf i⟩ := by
    intro i hi
    by_cases heq : i = m.running
    · rw [heq, Function.update_self]
      rfl
    · rw [Function.update_of_ne heq, hinv.resumes i heq hi]
      exact congrArg (fun stack ↦ some (SavedContext.mk i stack))
        (Function.update_of_ne heq ..).symm
  have hsteady : ∀ i, InUse m.kernel i →
      ∀ call ∈ ((m.setStack stack).stackOf i).calls, Steady m.kernel i call := by
    intro i hi call hcall
    by_cases heq : i = m.running
    · rw [heq] at hcall ⊢
      have hown : call ∈ stack.calls := (Machine.setStack_stack m stack) ▸ hcall
      rw [hstack] at hown
      rcases List.mem_cons.mp hown with rfl | hmem
      · exact ⟨nofun, nofun, nofun⟩
      · exact hrest call hmem
    · have hother : (m.setStack stack).stackOf i = m.stackOf i := Function.update_of_ne heq ..
      rw [hother] at hcall
      exact hinv.others i heq hi call hcall
  obtain ⟨context, hcontext, rfl⟩ := Option.map_eq_some_iff.mp hswitch
  obtain rfl := Option.some.inj (hcontext.symm.trans (hsaved p hp))
  have hsame : ∀ i, Function.update (m.setStack stack).stackOf p ((m.setStack stack).stackOf p) i =
      (m.setStack stack).stackOf i := fun i ↦ by rw [Function.update_eq_self]
  refine ⟨hp, fun i context hi ↦ ?_, fun i hne hi ↦ ?_, fun i hne hi call hcall ↦ ?_, ?_⟩
  · dsimp only at hi
    by_cases heq : i = m.running
    · rw [heq, Function.update_self] at hi
      rw [← Option.some.inj hi, heq]
      rfl
    · rw [Function.update_of_ne heq] at hi
      exact hinv.owner i context hi
  · dsimp only
    rw [hsame]
    exact hsaved i hi
  · dsimp only at hcall
    rw [hsame] at hcall
    exact hsteady i hi call hcall
  · refine .steady hcurrent fun call hcall ↦ hsteady p hp call ?_
    rw [Machine.stack] at hcall
    dsimp only at hcall
    rwa [hsame] at hcall

/-- A statement of the latest call of `schedule` on the running stack. -/
theorem OwnerInvariant.scheduleStep (hinv : OwnerInvariant m) {put : Option ScheduleCall → Stack}
    (hcalls : m.stack.calls = call :: rest)
    (hput : ∀ later, (put later).calls = later.toList ++ rest)
    (hstep : m.scheduleStep call put = some after) : OwnerInvariant after := by
  have hrunning := hinv.calls
  rw [hcalls] at hrunning
  have hused := usedKept_scheduleStatement m.kernel call.stage
  have hunused : UnusedKept m.kernel (scheduleStatement m.kernel call.stage).1 := by
    exact unusedKept_scheduleStatement (hrunning.current hinv.used) hrunning.chosen_used
  rcases Machine.scheduleStep_cases hstep with ⟨later, hstatement, hafter⟩ |
    ⟨hstatement, hafter⟩ | ⟨old, p, hstage, hswitch⟩
  · rw [hstatement] at hused hunused
    rw [hafter]
    refine hinv.moved rfl rfl (fun i hne ↦ Function.update_of_ne hne ..) hused hunused ?_
    rw [Machine.setStack_stack, hput]
    exact hrunning.goto hstatement
  · rw [hstatement] at hused hunused
    rw [hafter]
    refine hinv.moved rfl rfl (fun i hne ↦ Function.update_of_ne hne ..) hused hunused ?_
    rw [Machine.setStack_stack, hput]
    exact hrunning.returned hstatement
  · exact hinv.switch hcalls hstage (hput _) hswitch

/-- The calls on a stack under a timer interrupt. -/
theorem Stack.calls_cons (base : Base) (call : Option CallStage) (handler : Handler)
    (handlers : List Handler) :
    (Stack.mk base call (handler :: handlers)).calls =
      handler.stage.scheduleCall.toList ++ (Stack.mk base call handlers).calls := by
  rw [Stack.calls, Stack.calls]
  cases hcall : handler.stage.scheduleCall <;> simp [hcall]

/-- A statement of the timer interrupt on top of the running stack. -/
theorem OwnerInvariant.handlerStep (hinv : OwnerInvariant m) {handler : Handler}
    {handlers : List Handler} (hhandlers : m.stack.handlers = handler :: handlers)
    (hnested : NoNestedSchedule m .statement)
    (hstep : m.handlerStep handler handlers = some after) : OwnerInvariant after := by
  have hcalls : m.stack.calls = handler.stage.scheduleCall.toList ++
      (Stack.mk m.stack.base m.stack.call handlers).calls := by
    rw [← Stack.calls_cons, ← hhandlers]
  have hput : ∀ stage : HandlerStage, ({ m.stack with
      handlers := { handler with stage := stage } :: handlers } : Stack).calls =
        stage.scheduleCall.toList ++ (Stack.mk m.stack.base m.stack.call handlers).calls :=
    fun stage ↦ Stack.calls_cons ..
  obtain ⟨hused, hunused⟩ := usedKept_refl m.kernel
  rw [Machine.handlerStep] at hstep
  cases hstage : handler.stage with
  | clock =>
    rw [hstage] at hstep hcalls
    obtain rfl := Option.some.inj hstep
    exact hinv.quiet hused hunused rfl ((hput .countdown).trans hcalls.symm)
  | countdown =>
    rw [hstage] at hstep hcalls
    obtain rfl := Option.some.inj hstep
    obtain ⟨hcounted, hcountedBack⟩ := used_countdownAll m.kernel
    exact hinv.quiet hcounted hcountedBack rfl ((hput .test).trans hcalls.symm)
  | test =>
    rw [hstage] at hstep hcalls
    obtain rfl := Option.some.inj hstep
    refine hinv.moved rfl rfl (fun i hne ↦ Function.update_of_ne hne ..) hused hunused ?_
    rw [Machine.setStack_stack]
    split_ifs with hdue
    · have hpending := hnested handler handlers rfl hhandlers hstage hdue
      rw [hput]
      have hbelow : (Stack.mk m.stack.base m.stack.call handlers).calls = m.stack.calls :=
        hcalls.symm
      rw [hbelow]
      exact hinv.calls.cons _ hpending
    · rw [hput]
      exact hcalls ▸ hinv.calls
  | schedule call =>
    rw [hstage] at hstep hcalls
    refine hinv.scheduleStep hcalls (fun later ↦ ?_) hstep
    rw [hput]
    cases later <;> rfl
  | eoi =>
    rw [hstage] at hstep hcalls
    obtain rfl := Option.some.inj hstep
    exact hinv.quiet hused hunused rfl ((hput .iret).trans hcalls.symm)
  | iret =>
    rw [hstage] at hstep hcalls
    obtain rfl := Option.some.inj hstep
    exact hinv.quiet hused hunused rfl hcalls.symm

/-- The calls on a stack with no timer interrupt. -/
theorem Stack.calls_of_nil {stack : Stack} (hhandlers : stack.handlers = []) :
    stack.calls = (stack.call.bind CallStage.scheduleCall).toList := by
  rw [Stack.calls, hhandlers]
  rfl

/-- A statement of a call that the running process made. -/
theorem OwnerInvariant.callStep (hinv : OwnerInvariant m) {stage : CallStage}
    (hhandlers : m.stack.handlers = []) (hcall : m.stack.call = some stage)
    (hstep : m.callStep stage = some after) : OwnerInvariant after := by
  have hcalls : m.stack.calls = stage.scheduleCall.toList := by
    rw [Stack.calls_of_nil hhandlers, hcall]
    rfl
  have hput : ∀ later : Option CallStage, ({ m.stack with call := later } : Stack).calls =
      (later.bind CallStage.scheduleCall).toList := fun later ↦ Stack.calls_of_nil hhandlers
  have hinuse := hinv.calls.current hinv.used
  -- a write to the current process, on the way to the call of `schedule`
  have hmodify : ∀ f later, (∀ process, process.state ≠ .unused → (f process).state ≠ .unused) →
      stage.scheduleCall = none → (later.scheduleCall = none ∨
        later.scheduleCall = some ⟨m.interruptFlag, .start⟩) →
      OwnerInvariant ({ m with kernel := modifyCurrent m.kernel f }.setStack
        { m.stack with call := some later }) := by
    intro f later hf hnone hlater
    refine hinv.moved rfl rfl (fun i hne ↦ Function.update_of_ne hne ..)
      (usedKept_modifyCurrent f hf) (unusedKept_modifyCurrent f hinuse) ?_
    rw [Machine.setStack_stack, hput]
    have hempty : m.stack.calls = [] := by rw [hcalls, hnone]; rfl
    have hkept := hinv.calls.kept (usedKept_modifyCurrent f hf) (currentProc_modifyCurrent f)
    rw [hempty] at hkept
    rcases hlater with hlater | hlater
    · rwa [Option.bind_some, hlater]
    · rw [Option.bind_some, hlater]
      exact hkept.cons _ nofun
  cases stage with
  | sleepStore ms =>
    obtain rfl := Option.some.inj hstep
    exact hmodify _ _ (fun _ h ↦ h) rfl (Or.inl rfl)
  | sleepAtLeastOne =>
    obtain rfl := Option.some.inj hstep
    refine hmodify _ _ (fun process h ↦ ?_) rfl (Or.inl rfl)
    split_ifs <;> exact h
  | sleepMark =>
    obtain rfl := Option.some.inj hstep
    exact hmodify _ _ (fun _ _ h ↦ ProcState.noConfusion h) rfl (Or.inr rfl)
  | exitState code =>
    obtain rfl := Option.some.inj hstep
    exact hmodify _ _ (fun _ _ h ↦ ProcState.noConfusion h) rfl (Or.inl rfl)
  | exitCode code =>
    obtain rfl := Option.some.inj hstep
    exact hmodify _ _ (fun _ h ↦ h) rfl (Or.inr rfl)
  | schedule call =>
    have hschedule : m.scheduleStep call (fun later ↦
        { m.stack with call := later.map CallStage.schedule }) = some after := hstep
    refine hinv.scheduleStep hcalls (fun later ↦ ?_) hschedule
    rw [hput]
    cases later <;> rfl

/-- A statement of the code at the base of the running stack. -/
theorem OwnerInvariant.baseStep (hinv : OwnerInvariant m) : OwnerInvariant m.baseStep := by
  obtain ⟨hused, hunused⟩ := usedKept_refl m.kernel
  rcases m.baseStep_cases with heq | heq
  · rw [heq]
    exact hinv
  · rw [heq]
    exact hinv.quiet hused hunused rfl rfl

/-- The next statement. -/
theorem OwnerInvariant.statement (hinv : OwnerInvariant m) (hnested : NoNestedSchedule m .statement)
    (hstep : m.statement = some after) : OwnerInvariant after := by
  rcases Machine.statement_cases hstep with ⟨handler, handlers, hhandlers, hhandler⟩ |
    ⟨hhandlers, ⟨call, hcall, hmade⟩ | ⟨-, rfl⟩⟩
  · exact hinv.handlerStep hhandlers hnested hhandler
  · exact hinv.callStep hhandlers hcall hmade
  · exact hinv.baseStep

/-- A process created. -/
theorem OwnerInvariant.created (hinv : OwnerInvariant m) (base : Base)
    (hadded : ProcessAdded m.kernel k p) : OwnerInvariant (m.created base (some p, k)) := by
  have hused := usedKept_added hadded
  have hback : ∀ i, i ≠ p → InUse k i → InUse m.kernel i := by
    intro i hne hi
    rwa [InUse, hadded.procTable_of_ne i hne] at hi
  have hne : m.running ≠ p := fun heq ↦ hinv.used (heq ▸ hadded.unused_before)
  refine ⟨hused _ hinv.used, fun i context hi ↦ ?_, fun i hother hi ↦ ?_,
    fun i hother hi call hcall ↦ ?_, ?_⟩
  · by_cases heq : i = p
    · subst heq
      change Function.update m.saved i _ i = some context at hi
      rw [Function.update_self] at hi
      rw [← Option.some.inj hi]
    · change Function.update m.saved p _ i = some context at hi
      rw [Function.update_of_ne heq] at hi
      exact hinv.owner i context hi
  · change Function.update m.saved p _ i = some ⟨i, Function.update m.stackOf p _ i⟩
    by_cases heq : i = p
    · subst heq
      rw [Function.update_self, Function.update_self]
    · rw [Function.update_of_ne heq, Function.update_of_ne heq]
      exact hinv.resumes i hother (hback i heq hi)
  · change call ∈ (Function.update m.stackOf p _ i).calls at hcall
    by_cases heq : i = p
    · subst heq
      rw [Function.update_self] at hcall
      exact absurd hcall List.not_mem_nil
    · rw [Function.update_of_ne heq] at hcall
      exact (hinv.others i hother (hback i heq hi) call hcall).kept hused
  · change RunningCalls k m.running (Function.update m.stackOf p _ m.running).calls
    rw [Function.update_of_ne hne]
    exact hinv.calls.kept hused hadded.currentProc_eq

variable {entryPoints : EntryPoints} {gate : Machine → Bool} {event : MachineEvent}

/-- A call of the running process's own code. -/
theorem OwnerInvariant.own (hinv : OwnerInvariant m) {made : CodeCall}
    (hcode : m.stack.atCode = true)
    (hstep : made.perform entryPoints m m.stack.base = some after) : OwnerInvariant after := by
  obtain ⟨hcall, hhandlers⟩ := Stack.atCode_cases hcode
  obtain ⟨hused, hunused⟩ := usedKept_refl m.kernel
  have hempty : m.stack.calls = [] := by
    rw [Stack.calls_of_nil hhandlers, hcall]
    rfl
  rcases CodeCall.perform_cases hstep with ⟨stage, hstage, rfl⟩ | ⟨p, rfl⟩ |
    ⟨base, result, hcreates, rfl⟩ | ⟨flag, base, rfl⟩
  · have hput : ({ m.stack with call := some stage } : Stack).calls = stage.scheduleCall.toList :=
      Stack.calls_of_nil hhandlers
    refine hinv.moved rfl rfl (fun i hne ↦ Function.update_of_ne hne ..) hused hunused ?_
    have hcalls := hinv.calls
    rw [hempty] at hcalls
    rw [Machine.enter, Machine.setStack_stack, hput]
    rcases hstage with hstage | hstage
    · rw [hstage]
      exact hcalls
    · rw [hstage]
      exact hcalls.cons _ nofun
  · exact hinv.moved rfl rfl (fun _ _ ↦ rfl) (used_procWakeup p).1 (used_procWakeup p).2
      (hinv.calls.kept (used_procWakeup p).1 (Ipc.procWakeup_frame m.kernel p).2.2)
  · rcases hcreates with rfl | ⟨p, k, rfl, hadded⟩
    · exact hinv
    · exact hinv.created base hadded
  · exact hinv.quiet hused hunused rfl rfl

/-- The timer interrupts. -/
theorem OwnerInvariant.interrupt (hinv : OwnerInvariant m) : OwnerInvariant m.interrupt := by
  obtain ⟨hused, hunused⟩ := usedKept_refl m.kernel
  exact hinv.quiet hused hunused rfl (Stack.calls_cons ..)

/-- Every step but a `schedule` nested in the window. -/
theorem OwnerInvariant.step (hinv : OwnerInvariant m) (hnested : NoNestedSchedule m event)
    (hstep : (timerSystem entryPoints gate).step m event after) : OwnerInvariant after := by
  rcases timerStep_cases hstep with ⟨-, -, rfl⟩ | ⟨rfl, hstatement⟩ | ⟨made, -, hcode, hmade⟩
  · exact hinv.interrupt
  · exact hinv.statement hnested hstatement
  · exact hinv.own hcode hmade

/-! ### Runs -/

/-- `kernel_main` starts in its idle loop, with everyone else's first context in place. -/
theorem OwnerInvariant.start (hstart : (timerSystem entryPoints gate).start m) :
    OwnerInvariant m := by
  have hrunning := (OwnersUsed.start hstart).running
  obtain ⟨procIdle, idleStack, shell, idle, k, hmain, rfl⟩ := hstart
  have hscheduler : SchedulerInvariant idle k idle :=
    SchedulerInvariant.start ⟨procIdle, idleStack, shell, hmain⟩
  refine ⟨hrunning, fun i context hi ↦ ?_, fun i hne hi ↦ ?_, fun i hne hi call hcall ↦ ?_,
    .steady hscheduler.current_eq ?_⟩
  · rw [Machine.boot] at hi
    dsimp only at hi
    split_ifs at hi <;> cases hi <;> rfl
  · have hother : i ≠ idle := hne
    have hused : (k.procTable i).state ≠ .unused := hi
    simp only [Machine.boot, if_neg hother, if_neg hused]
  · have hother : i ≠ idle := hne
    simp only [Machine.boot, if_neg hother] at hcall
    cases hcall
  · change ∀ call ∈ (if idle = idle then Stack.fresh .code else .fresh .entryUser).calls, _
    rw [if_pos rfl]
    intro call hcall
    cases hcall

/-- The run lemma. -/
theorem OwnerInvariant.of_run {events : List MachineEvent}
    (hrun : ((timerSystem entryPoints gate).restrict NoNestedSchedule).Run events m) :
    OwnerInvariant m := by
  refine hrun.invariant (motive := OwnerInvariant) (fun state hstart ↦ ?_) ?_
  · have horigin : (timerSystem entryPoints gate).start state := hstart
    exact OwnerInvariant.start horigin
  · rintro state event next hinv ⟨hnested, hstep⟩
    exact hinv.step hnested hstep

/-- `schedule` suspends the process on whose stack it calls `switch_context`. -/
theorem OwnerInvariant.switch_old {old : ProcIndex} (hinv : OwnerInvariant m)
    (hcall : m.stack.scheduling = some call) (hstage : call.stage = .switch old p) :
    old = m.running := by
  obtain ⟨rest, hcalls⟩ := Stack.calls_of_scheduling hcall
  have hrunning := hinv.calls
  rw [hcalls] at hrunning
  exact (hrunning.switched hstage).1

/-- The processor under the timer: where no interrupt came in `switch_context`, the call of
`switch_context` disturbs no interrupt. -/
theorem schedule_undisturbed (layout : Arch.StackLayout ProcIndex)
    {s : Arch.InterruptState ProcIndex} {events : List MachineEvent} {old : ProcIndex}
    (hrun : ((timerSystem entryPoints gate).restrict NoNestedSchedule).Run events m)
    (hcall : m.stack.scheduling = some call) (hstage : call.stage = .switch old p)
    (hrunning : s.running = m.running) (houtside : Arch.OutsideSwitch (s.entries s.running)) :
    layout.Undisturbed s (.callSwitch old p) :=
  ⟨((OwnerInvariant.of_run hrun).switch_old hcall hstage).trans hrunning.symm, houtside⟩

/-- In every state of a run without a `schedule` nested in the window, whenever the timer is let in,
contexts are saved from their own processes' stacks, and everyone goes on where it stopped. -/
theorem stacks_owned_run {events : List MachineEvent}
    (hrun : ((timerSystem entryPoints gate).restrict NoNestedSchedule).Run events m) :
    StacksOwned m := by
  have hinv := OwnerInvariant.of_run hrun
  exact ⟨fun call old p hcall hstage ↦ hinv.switch_old hcall hstage, hinv.owner, hinv.resumes⟩

/-- The process yields to idle, and the timer interrupts between `current_proc = p` and the
switch. -/
def interruptedSwitch : List MachineEvent :=
  createdStarts ++ [.own .yield] ++ List.replicate (procMax + 4) .statement ++ quietTick ++
    List.replicate 6 .statement

/-- The state it leads to, with no `schedule` nested in the window. -/
def interruptedState : Option Machine :=
  interruptedSwitch.foldlM (fun m event ↦
    if NoNestedSchedule m event then
      event.perform ⟨1#64, 2#64⟩ Machine.interruptFlag m
    else none)
    (.boot 0 idleAlone)

theorem interruptedState_isSome : interruptedState.isSome = true := by
  decide +kernel

/-- The processor is back on idle's stack, and the context of the process is its own. -/
theorem stacks_owned_run_yield : ∃ m : Machine, m.running = 0 ∧
    (m.saved 1).map SavedContext.owner = some 1 ∧ StacksOwned m := by
  have hrun := TransitionSystem.Run.restrict_of_get (boot_idleAlone Machine.interruptFlag)
    interruptedState_isSome
  exact ⟨interruptedState.get interruptedState_isSome, by decide +kernel, by decide +kernel,
    stacks_owned_run hrun⟩

/-- Nine ticks in the process, and then the tenth between `current_proc = p` and the switch of its
yield to idle: the nested `schedule` suspends idle, which is current, on the process's stack. The
timer interrupts wherever interrupts are enabled. -/
def nestedSchedule : List MachineEvent :=
  createdStarts ++ (List.replicate 9 quietTick).flatten ++ [.own .yield] ++
    List.replicate (procMax + 4) .statement ++ [.tick] ++ List.replicate 13 .statement

def nestedState : Option Machine :=
  nestedSchedule.foldlM (MachineEvent.perform ⟨1#64, 2#64⟩ Machine.interruptFlag)
    (.boot 0 idleAlone)

theorem nestedState_isSome : nestedState.isSome = true := by
  decide +kernel

/-- Idle's context holds the stack of the process. -/
theorem context_overwritten : ¬ ∀ entryPoints gate events m,
    (timerSystem entryPoints gate).Run events m → StacksOwned m := by
  intro hall
  have hrun := TransitionSystem.Run.of_get (boot_idleAlone Machine.interruptFlag)
    nestedState_isSome
  have howned : StacksOwned (nestedState.get nestedState_isSome) := hall _ _ _ _ hrun
  have hsaved : ((nestedState.get nestedState_isSome).saved 0).map SavedContext.owner = some 1 := by
    decide +kernel
  obtain ⟨context, hcontext, howner⟩ := Option.map_eq_some_iff.mp hsaved
  have hself := howned.contexts 0 context hcontext
  rw [howner] at hself
  exact absurd hself (by decide)

end Colix.Proc
