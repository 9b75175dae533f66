import Colix.Foundation.Execution
import Colix.Proc.SchedulerRun

/-!
# The timer between the statements of `schedule`

`schedule`, its callers and the timer's branch of `interrupt_dispatch`, statement by statement, on
the stacks they run on. The processor is on one process's stack at a time. A stack holds the
process's own code, the call it made, and the timer interrupts that arrived on top, and
`switch_context` saves the stack it is executed on into a context and goes on with the stack another
context names.

The interrupt flag and the PIC's record of an interrupt in service are bits of the machine. When
they let the timer in is a parameter, and `hardwareGate` is what the processor and the PIC do.
`schedule_statements` shows that the statements of `schedule`, run through, are the state change of
`Proc.schedule`.
-/

set_option autoImplicit false
set_option relaxedAutoImplicit false

namespace Colix.Proc

open Foundation

/-! ### Stacks -/

/-- The statements of `schedule`, with its variables `old`, `n` and `p`. `scan` is at an iteration
of the search, and `resumed` behind `switch_context`. -/
inductive ScheduleStage
  | start
  | requeueTest
  | requeue
  | takeOld
  | scan (old : ProcIndex) (n : ℕ)
  | setCurrent (old p : ProcIndex)
  | setRunning (old p : ProcIndex)
  | setRsp0 (old p : ProcIndex)
  | setStarted (old p : ProcIndex)
  | switch (old p : ProcIndex)
  | resumed
  | noneReady (old : ProcIndex)
  deriving DecidableEq

/-- A call of `schedule` in progress, with the interrupt flag it was entered with. -/
structure ScheduleCall where
  flag : Bool
  stage : ScheduleStage
  deriving DecidableEq

/-- A timer interrupt in `interrupt_dispatch`: `ticks++`, the countdown and the test of
`sched_tick`, its call of `schedule`, the acknowledgement, and `iretq`. -/
inductive HandlerStage
  | clock
  | countdown
  | test
  | schedule (call : ScheduleCall)
  | eoi
  | iret

/-- A timer interrupt on a stack, with the interrupt flag of the code it interrupted. -/
structure Handler where
  flag : Bool
  stage : HandlerStage

/-- A call that a process's own code made: the statements of `proc_sleep` and of `proc_exit`, and
the call of `schedule` they and `proc_yield` end in. -/
inductive CallStage
  | sleepStore (ms : Word)
  | sleepAtLeastOne
  | sleepMark
  | exitState (code : Int32)
  | exitCode (code : Int32)
  | schedule (call : ScheduleCall)

/-- The code at the base of a stack: `proc_entrypoint` before its `sti`, `proc_entry_user` before
its `iretq`, the process's own code, or a system call with the interrupt flag it returns to. -/
inductive Base
  | entrypoint
  | entryUser
  | code
  | syscall (flag : Bool)

/-- What a process's stack holds: its base, the call made from there, and the timer interrupts on
top, the latest first. -/
structure Stack where
  base : Base
  call : Option CallStage
  handlers : List Handler

/-- A process that has never run. -/
def Stack.fresh (base : Base) : Stack where
  base := base
  call := none
  handlers := []

/-- A saved context: whose stack it points into, and what was on it. -/
structure SavedContext where
  owner : ProcIndex
  stack : Stack

/-- The processor is on the stack of process `running`. `saved` are the fields `context`. -/
structure Machine where
  kernel : Kernel
  running : ProcIndex
  stackOf : ProcIndex → Stack
  saved : ProcIndex → Option SavedContext
  interruptFlag : Bool
  inService : Bool

/-- The stack the processor is on. -/
def Machine.stack (m : Machine) : Stack :=
  m.stackOf m.running

def Machine.setStack (m : Machine) (stack : Stack) : Machine :=
  { m with stackOf := Function.update m.stackOf m.running stack }

/-! ### The statements -/

/-- How `schedule` goes on from a statement. -/
inductive Outcome
  | goto (stage : ScheduleStage)
  | returned
  | switched (old p : ProcIndex)

/-- A statement of `schedule`. -/
def scheduleStatement (k : Kernel) : ScheduleStage → Kernel × Outcome
  | .start => (k, if k.currentProc = none then .returned else .goto .requeueTest)
  | .requeueTest =>
    (k, .goto
      (if k.currentProc.any fun current ↦ (k.procTable current).state == .running then .requeue
        else .takeOld))
  | .requeue => (modifyCurrent k fun process ↦ { process with state := .ready }, .goto .takeOld)
  | .takeOld =>
    match k.currentProc with
    | none => (k, .returned)
    | some old => (k, .goto (.scan old 1))
  | .scan old n =>
    if n ≤ procMax then
      let p := Fin.ofNat procMax (old + n)
      if (k.procTable p).state = .ready then (k, .goto (.setCurrent old p))
      else (k, .goto (.scan old (n + 1)))
    else (k, .goto (.noneReady old))
  | .setCurrent old p => ({ k with currentProc := some p }, .goto (.setRunning old p))
  | .setRunning old p =>
    (k.modify p fun process ↦ { process with state := .running }, .goto (.setRsp0 old p))
  | .setRsp0 old p => ({ k with tssRsp0 := (k.procTable p).kernelRsp }, .goto (.setStarted old p))
  | .setStarted old p =>
    (if (k.procTable p).isUser && !(k.procTable p).started then
        k.modify p fun process ↦ { process with started := true }
      else k,
      .goto (.switch old p))
  | .switch old p => (k, .switched old p)
  | .resumed => (k, .returned)
  | .noneReady old =>
    (if (k.procTable old).state = .ready then
        k.modify old fun process ↦ { process with state := .running }
      else k,
      .returned)

/-- `switch_context(&old->context, &p->context)` on the running stack. Nothing is known of a context
that was never written. -/
def Machine.switch (m : Machine) (old p : ProcIndex) : Option Machine :=
  let saved := Function.update m.saved old (some ⟨m.running, m.stack⟩)
  (saved p).map fun context ↦
    { m with
      running := context.owner
      stackOf := Function.update m.stackOf context.owner context.stack
      saved := saved }

/-- A statement of a call of `schedule`. `put` is the running stack with the call at its next
statement, or returned from. -/
def Machine.scheduleStep (m : Machine) (call : ScheduleCall) (put : Option ScheduleCall → Stack) :
    Option Machine :=
  match scheduleStatement m.kernel call.stage with
  | (k, .goto stage) => some ({ m with kernel := k }.setStack (put (some { call with stage })))
  | (k, .returned) => some ({ m with kernel := k }.setStack (put none))
  | (k, .switched old p) =>
    ({ m with kernel := k }.setStack (put (some { call with stage := .resumed }))).switch old p

/-- The stage of a timer interrupt in its call of `schedule`, or back from it. -/
def HandlerStage.ofSchedule : Option ScheduleCall → HandlerStage
  | some call => .schedule call
  | none => .eoi

/-- The next statement of the timer interrupt on top of the running stack. -/
def Machine.handlerStep (m : Machine) (handler : Handler) (rest : List Handler) : Option Machine :=
  let put (stage : HandlerStage) : Stack :=
    { m.stack with handlers := { handler with stage } :: rest }
  match handler.stage with
  | .clock =>
    some ({ m with kernel := { m.kernel with ticks := m.kernel.ticks + 1#64 } }.setStack
      (put .countdown))
  | .countdown => some ({ m with kernel := countdownAll m.kernel }.setStack (put .test))
  | .test =>
    some (m.setStack
      (if m.kernel.currentProc.isSome && m.kernel.ticks % 10#64 == 0#64 then
        put (.schedule ⟨m.interruptFlag, .start⟩)
      else put .eoi))
  | .schedule call => m.scheduleStep call fun next ↦ put (.ofSchedule next)
  | .eoi => some ({ m with inService := false }.setStack (put .iret))
  | .iret =>
    some ({ m with interruptFlag := handler.flag }.setStack { m.stack with handlers := rest })

/-- The next statement of a call that the running process made. -/
def Machine.callStep (m : Machine) (call : CallStage) : Option Machine :=
  let put (k : Kernel) (call : CallStage) : Option Machine :=
    some ({ m with kernel := k }.setStack { m.stack with call := some call })
  let callSchedule : CallStage := .schedule ⟨m.interruptFlag, .start⟩
  match call with
  | .sleepStore ms =>
    put (modifyCurrent m.kernel fun process ↦
      { process with sleepTicks := ms * pitHz / 1000#64 }) .sleepAtLeastOne
  | .sleepAtLeastOne =>
    put (modifyCurrent m.kernel fun process ↦
      if process.sleepTicks = 0#64 then { process with sleepTicks := 1#64 } else process) .sleepMark
  | .sleepMark =>
    put (modifyCurrent m.kernel fun process ↦ { process with state := .sleeping }) callSchedule
  | .exitState code =>
    put (modifyCurrent m.kernel fun process ↦ { process with state := .zombie }) (.exitCode code)
  | .exitCode code =>
    put (modifyCurrent m.kernel fun process ↦ { process with exitCode := code }) callSchedule
  | .schedule call =>
    m.scheduleStep call fun next ↦ { m.stack with call := next.map CallStage.schedule }

/-- The next statement of the code at the base of the running stack. -/
def Machine.baseStep (m : Machine) : Machine :=
  match m.stack.base with
  | .entrypoint => { m with interruptFlag := true }.setStack { m.stack with base := .code }
  | .entryUser => { m with interruptFlag := true }.setStack { m.stack with base := .code }
  | .code => m
  | .syscall _ => m

/-- The next statement on the running stack. -/
def Machine.statement (m : Machine) : Option Machine :=
  match m.stack.handlers, m.stack.call with
  | handler :: rest, _ => m.handlerStep handler rest
  | [], some call => m.callStep call
  | [], none => some m.baseStep

/-! ### Runs -/

/-- What a process's own code does: call, wake a process by sending to it, create a process, and
enter and leave a system call. -/
inductive CodeCall
  | yield
  | sleep (ms : Word)
  | exit (code : Int32)
  | wakeup (p : ProcIndex)
  | create (kstack : Word) (name : List Byte) (entry : Word)
  | createElf (pages : ElfPages) (entry : Word)
  | syscall
  | sysret

/-- A step: the timer interrupts, the next statement, or a call of the running process's own
code. -/
inductive MachineEvent
  | tick
  | statement
  | own (call : CodeCall)

/-- The timer interrupts: an interrupt gate clears the interrupt flag. -/
def Machine.interrupt (m : Machine) : Machine :=
  { m with interruptFlag := false, inService := true }.setStack
    { m.stack with handlers := ⟨m.interruptFlag, .clock⟩ :: m.stack.handlers }

/-- A process created with its first context. -/
def Machine.created (m : Machine) (base : Base) : Option ProcIndex × Kernel → Machine
  | (none, k) => { m with kernel := k }
  | (some p, k) =>
    { m with
      kernel := k
      stackOf := Function.update m.stackOf p (.fresh base)
      saved := Function.update m.saved p (some ⟨p, .fresh base⟩) }

/-- The running process calls. -/
def Machine.enter (m : Machine) (call : CallStage) : Machine :=
  m.setStack { m.stack with call := some call }

/-- A call of the running process's own code, from its base `base`. -/
def CodeCall.perform (entryPoints : EntryPoints) (m : Machine) (base : Base) :
    CodeCall → Option Machine
  | .yield => some (m.enter (.schedule ⟨m.interruptFlag, .start⟩))
  | .sleep ms => some (m.enter (.sleepStore ms))
  | .exit code => some (m.enter (.exitState code))
  | .wakeup p => some { m with kernel := procWakeup m.kernel p }
  | .create kstack name entry =>
    some (m.created .entrypoint (procCreate entryPoints kstack name entry m.kernel))
  | .createElf pages entry =>
    some (m.created .entryUser (procCreateElf entryPoints pages entry m.kernel))
  | .syscall =>
    match base with
    | .code =>
      some ({ m with interruptFlag := false }.setStack
        { m.stack with base := .syscall m.interruptFlag })
    | _ => none
  | .sysret =>
    match base with
    | .syscall flag =>
      some ({ m with interruptFlag := flag }.setStack { m.stack with base := .code })
    | _ => none

/-- The running process is at its own code, or in a system call. -/
def Stack.atCode (stack : Stack) : Bool :=
  match stack with
  | ⟨.code, none, []⟩ => true
  | ⟨.syscall _, none, []⟩ => true
  | _ => false

/-- The state after a step, when the step is possible. -/
def MachineEvent.perform (entryPoints : EntryPoints) (gate : Machine → Bool) (m : Machine) :
    MachineEvent → Option Machine
  | .tick => if gate m then some m.interrupt else none
  | .statement => m.statement
  | .own call => if m.stack.atCode then call.perform entryPoints m m.stack.base else none

/-- When the timer can interrupt: interrupts are enabled and none is in service. -/
def hardwareGate (m : Machine) : Bool :=
  m.interruptFlag && !m.inService

/-- The state in which `kernel_main` has started the scheduler: the processor is in its idle loop,
behind `sti`, and every process has its first context. -/
def Machine.boot (idle : ProcIndex) (k : Kernel) : Machine where
  kernel := k
  running := idle
  stackOf p := if p = idle then .fresh .code else .fresh .entryUser
  saved p :=
    if (k.procTable p).state = .unused then none
    else if p = idle then some ⟨p, .fresh .entrypoint⟩
    else some ⟨p, .fresh .entryUser⟩
  interruptFlag := true
  inService := false

/-- Runs from `kernel_main`, with the timer let in by `gate`. -/
def timerSystem (entryPoints : EntryPoints) (gate : Machine → Bool) :
    TransitionSystem Machine MachineEvent :=
  .ofFunction
    (fun m ↦ ∃ procIdle idleStack shell idle k,
      kernelMain entryPoints procIdle idleStack shell = some (idle, k) ∧ m = .boot idle k)
    (MachineEvent.perform entryPoints gate)

/-! ### What a step is -/

def HandlerStage.scheduleCall : HandlerStage → Option ScheduleCall
  | .schedule call => some call
  | _ => none

def CallStage.scheduleCall : CallStage → Option ScheduleCall
  | .schedule call => some call
  | _ => none

/-- The switch a statement of `schedule` makes. -/
def ScheduleStage.switchTo : ScheduleStage → Option ContextSwitch
  | .switch old p => some ⟨old, p⟩
  | _ => none

theorem ScheduleStage.switchTo_iff {stage : ScheduleStage} {made : ContextSwitch} :
    made ∈ stage.switchTo ↔ stage = .switch made.old made.new := by
  obtain ⟨old, p⟩ := made
  cases stage <;> simp [switchTo]

/-- The call of `schedule` whose statement is the next on a stack. -/
def Stack.scheduling (stack : Stack) : Option ScheduleCall :=
  match stack.handlers with
  | handler :: _ => handler.stage.scheduleCall
  | [] => stack.call.bind CallStage.scheduleCall

def MachineEvent.isStatement : MachineEvent → Bool
  | .statement => true
  | _ => false

section Steps

variable {m after : Machine} {k next : Kernel} {old p : ProcIndex}

theorem Machine.setStack_stack (m : Machine) (stack : Stack) : (m.setStack stack).stack = stack :=
  Function.update_self ..

/-- `schedule` switches from its last statement, with nothing written by then. -/
theorem scheduleStatement_switched {stage : ScheduleStage} {old : ProcIndex}
    (hstatement : scheduleStatement k stage = (next, .switched old p)) :
    stage = .switch old p ∧ next = k := by
  cases stage with
  | start =>
    rw [scheduleStatement] at hstatement
    split_ifs at hstatement <;> cases hstatement
  | takeOld =>
    rw [scheduleStatement] at hstatement
    split at hstatement <;> cases hstatement
  | scan old n =>
    dsimp only [scheduleStatement] at hstatement
    split_ifs at hstatement <;> cases hstatement
  | switch old p =>
    cases hstatement
    exact ⟨rfl, rfl⟩
  | _ => cases hstatement

/-- A statement of `schedule` moves the running process alone, or it is the switch. -/
theorem Machine.scheduleStep_cases {call : ScheduleCall} {put : Option ScheduleCall → Stack}
    (hstep : m.scheduleStep call put = some after) :
    (∃ stage, scheduleStatement m.kernel call.stage = (after.kernel, .goto stage) ∧
        after = { m with kernel := after.kernel }.setStack (put (some { call with stage }))) ∨
      (scheduleStatement m.kernel call.stage = (after.kernel, .returned) ∧
        after = { m with kernel := after.kernel }.setStack (put none)) ∨
      ∃ old p, call.stage = .switch old p ∧
        (m.setStack (put (some { call with stage := .resumed }))).switch old p = some after := by
  rw [Machine.scheduleStep] at hstep
  split at hstep
  next k stage hstatement =>
    obtain rfl := Option.some.inj hstep
    exact Or.inl ⟨stage, hstatement, rfl⟩
  next k hstatement =>
    obtain rfl := Option.some.inj hstep
    exact Or.inr (Or.inl ⟨hstatement, rfl⟩)
  next k old p hstatement =>
    obtain ⟨hstage, rfl⟩ := scheduleStatement_switched hstatement
    exact Or.inr (Or.inr ⟨old, p, hstage, hstep⟩)

/-- The switch goes on with the stack it has just saved, or with the one the context names. -/
theorem Machine.switch_cases (hswitch : m.switch old p = some after) :
    ∃ context, (p = old ∧ context = ⟨m.running, m.stack⟩ ∨
        p ≠ old ∧ m.saved p = some context) ∧
      after = { m with
        running := context.owner
        stackOf := Function.update m.stackOf context.owner context.stack
        saved := Function.update m.saved old (some ⟨m.running, m.stack⟩) } := by
  obtain ⟨context, hcontext, rfl⟩ := Option.map_eq_some_iff.mp hswitch
  refine ⟨context, ?_, rfl⟩
  by_cases heq : p = old
  · rw [heq, Function.update_self] at hcontext
    exact Or.inl ⟨heq, (Option.some.inj hcontext).symm⟩
  · rw [Function.update_of_ne heq] at hcontext
    exact Or.inr ⟨heq, hcontext⟩

/-- The next statement is the timer interrupt's, the call's, or that of the code at the base. -/
theorem Machine.statement_cases (hstep : m.statement = some after) :
    (∃ handler handlers, m.stack.handlers = handler :: handlers ∧
        m.handlerStep handler handlers = some after) ∨
      m.stack.handlers = [] ∧
        ((∃ call, m.stack.call = some call ∧ m.callStep call = some after) ∨
          m.stack.call = none ∧ after = m.baseStep) := by
  rw [Machine.statement] at hstep
  cases hhandlers : m.stack.handlers with
  | cons handler handlers =>
    rw [hhandlers] at hstep
    exact Or.inl ⟨handler, handlers, rfl, hstep⟩
  | nil =>
    refine Or.inr ⟨rfl, ?_⟩
    cases hcall : m.stack.call with
    | some call =>
      rw [hhandlers, hcall] at hstep
      exact Or.inl ⟨call, rfl, hstep⟩
    | none =>
      rw [hhandlers, hcall] at hstep
      exact Or.inr ⟨rfl, (Option.some.inj hstep).symm⟩

/-- The code at the base does nothing to the machine, or enables interrupts on its way to the
process's own code. -/
theorem Machine.baseStep_cases (m : Machine) :
    m.baseStep = m ∨
      m.baseStep = { m with interruptFlag := true }.setStack { m.stack with base := .code } := by
  rw [Machine.baseStep]
  split
  · exact Or.inr rfl
  · exact Or.inr rfl
  · exact Or.inl rfl
  · exact Or.inl rfl

variable {entryPoints : EntryPoints} {gate : Machine → Bool} {event : MachineEvent}

/-- The process's own code makes a call, wakes a process, creates one, or enters or leaves a system
call. -/
theorem CodeCall.perform_cases {made : CodeCall} {base : Base}
    (hstep : made.perform entryPoints m base = some after) :
    (∃ stage, (stage.scheduleCall = none ∨
        stage.scheduleCall = some ⟨m.interruptFlag, .start⟩) ∧ after = m.enter stage) ∨
      (∃ p, after = { m with kernel := procWakeup m.kernel p }) ∨
      (∃ base result, Creates m.kernel result ∧ after = m.created base result) ∨
      ∃ flag base,
        after = { m with interruptFlag := flag }.setStack { m.stack with base := base } := by
  cases made with
  | yield => exact Or.inl ⟨_, Or.inr rfl, (Option.some.inj hstep).symm⟩
  | sleep ms => exact Or.inl ⟨_, Or.inl rfl, (Option.some.inj hstep).symm⟩
  | exit code => exact Or.inl ⟨_, Or.inl rfl, (Option.some.inj hstep).symm⟩
  | wakeup p => exact Or.inr (Or.inl ⟨p, (Option.some.inj hstep).symm⟩)
  | create kstack name entry =>
    exact Or.inr (Or.inr (Or.inl ⟨_, _, procCreate_creates entryPoints kstack name entry _,
      (Option.some.inj hstep).symm⟩))
  | createElf pages entry =>
    exact Or.inr (Or.inr (Or.inl ⟨_, _, procCreateElf_creates entryPoints pages entry _,
      (Option.some.inj hstep).symm⟩))
  | syscall =>
    cases base <;> cases hstep
    exact Or.inr (Or.inr (Or.inr ⟨_, _, rfl⟩))
  | sysret =>
    cases base <;> cases hstep
    exact Or.inr (Or.inr (Or.inr ⟨_, _, rfl⟩))

/-- A step is a timer interrupt that is let in, a statement, or a call from the process's own
code. -/
theorem timerStep_cases (hstep : (timerSystem entryPoints gate).step m event after) :
    (event = .tick ∧ gate m = true ∧ after = m.interrupt) ∨
      (event = .statement ∧ m.statement = some after) ∨
      ∃ made, event = .own made ∧ m.stack.atCode = true ∧
        made.perform entryPoints m m.stack.base = some after := by
  cases event with
  | tick =>
    have hperform : (if gate m then some m.interrupt else none) = some after := hstep
    split_ifs at hperform with hgate
    exact Or.inl ⟨rfl, hgate, (Option.some.inj hperform).symm⟩
  | statement => exact Or.inr (Or.inl ⟨rfl, hstep⟩)
  | own made =>
    have hperform : (if m.stack.atCode then made.perform entryPoints m m.stack.base else none) =
        some after := hstep
    split_ifs at hperform with hcode
    exact Or.inr (Or.inr ⟨made, rfl, hcode, hperform⟩)

/-- A process at its own code has made no call, and no timer interrupt is on its stack. -/
theorem Stack.atCode_cases {stack : Stack} (hcode : stack.atCode = true) :
    stack.call = none ∧ stack.handlers = [] := by
  obtain ⟨base, _ | call, _ | ⟨handler, handlers⟩⟩ := stack
  · exact ⟨rfl, rfl⟩
  · cases base <;> cases hcode
  · cases base <;> cases hcode
  · cases base <;> cases hcode

end Steps

/-! ### Entries in use -/

section InUse

variable {m after : Machine} {k next : Kernel} {p : ProcIndex}

/-- An entry in use. -/
def InUse (k : Kernel) (p : ProcIndex) : Prop :=
  (k.procTable p).state ≠ .unused

/-- A process that is found READY is in use. -/
theorem InUse.of_ready (hready : (k.procTable p).state = .ready) : InUse k p := by
  rw [InUse, hready]
  exact ProcState.noConfusion

/-- An entry in use stays in use. -/
def UsedKept (k next : Kernel) : Prop :=
  ∀ i, InUse k i → InUse next i

theorem usedKept_modify (p : ProcIndex) (f : Process → Process)
    (hused : (k.procTable p).state ≠ .unused → (f (k.procTable p)).state ≠ .unused) :
    UsedKept k (k.modify p f) := by
  intro i hi
  rw [InUse]
  by_cases heq : i = p
  · rw [heq, Kernel.modify_procTable_self]
    exact hused (heq ▸ hi)
  · rw [Kernel.modify_procTable_of_ne _ _ heq]
    exact hi

theorem usedKept_modifyCurrent (f : Process → Process)
    (hused : ∀ process, process.state ≠ .unused → (f process).state ≠ .unused) :
    UsedKept k (modifyCurrent k f) := by
  rw [modifyCurrent]
  cases k.currentProc with
  | none => exact fun _ h ↦ h
  | some current => exact usedKept_modify current f (hused _)

theorem currentProc_modifyCurrent (f : Process → Process) :
    (modifyCurrent k f).currentProc = k.currentProc := by
  rw [modifyCurrent]
  split <;> rfl

theorem usedKept_scheduleStatement (k : Kernel) (stage : ScheduleStage) :
    UsedKept k (scheduleStatement k stage).1 := by
  have hsame : UsedKept k k := fun _ h ↦ h
  cases stage with
  | requeue => exact usedKept_modifyCurrent _ fun _ _ h ↦ ProcState.noConfusion h
  | takeOld =>
    rw [scheduleStatement]
    split <;> exact hsame
  | scan old n =>
    dsimp only [scheduleStatement]
    split_ifs <;> exact hsame
  | setRunning old p =>
    dsimp only [scheduleStatement]
    exact usedKept_modify p _ fun _ h ↦ ProcState.noConfusion h
  | setStarted old p =>
    dsimp only [scheduleStatement]
    split_ifs
    · exact usedKept_modify p _ id
    · exact hsame
  | noneReady old =>
    dsimp only [scheduleStatement]
    split_ifs
    · exact usedKept_modify old _ fun _ h ↦ ProcState.noConfusion h
    · exact hsame
  | _ => exact hsame

/-- Entries not in use stay so. -/
def UnusedKept (k next : Kernel) : Prop :=
  ∀ i, InUse next i → InUse k i

theorem unusedKept_modify (p : ProcIndex) (f : Process → Process) (hused : InUse k p) :
    UnusedKept k (k.modify p f) := by
  intro i hi
  by_cases heq : i = p
  · rw [heq]
    exact hused
  · rw [InUse, Kernel.modify_procTable_of_ne _ _ heq] at hi
    exact hi

theorem unusedKept_modifyCurrent (f : Process → Process) (hcurrent : CurrentInUse k) :
    UnusedKept k (modifyCurrent k f) := by
  rw [modifyCurrent]
  split
  next => exact fun _ h ↦ h
  next current hsome => exact unusedKept_modify current f (hcurrent current hsome)

theorem usedKept_refl (k : Kernel) : UsedKept k k ∧ UnusedKept k k :=
  ⟨fun _ h ↦ h, fun _ h ↦ h⟩

theorem used_procWakeup (p : ProcIndex) :
    UsedKept k (procWakeup k p) ∧ UnusedKept k (procWakeup k p) := by
  rw [procWakeup]
  split_ifs with hsleeping
  · have hused : InUse k p := by
      rw [InUse, hsleeping]
      exact ProcState.noConfusion
    exact ⟨usedKept_modify p _ fun _ h ↦ ProcState.noConfusion h, unusedKept_modify p _ hused⟩
  · exact usedKept_refl k

theorem used_countdownAll (k : Kernel) :
    UsedKept k (countdownAll k) ∧ UnusedKept k (countdownAll k) :=
  ⟨fun i hi ↦ (countdown_unused_iff (k.procTable i)).not.mpr hi,
    fun i hi ↦ (countdown_unused_iff (k.procTable i)).not.mp hi⟩

/-- A creation leaves the entries in use as they are. -/
theorem usedKept_added (hadded : ProcessAdded k next p) : UsedKept k next := by
  intro i hi
  have hne : i ≠ p := fun heq ↦ hi (heq ▸ hadded.unused_before)
  rwa [InUse, hadded.procTable_of_ne i hne]

/-- The processor is on the stack of a process, and so were those whose contexts are saved. -/
structure OwnersUsed (m : Machine) : Prop where
  running : InUse m.kernel m.running
  owners : ∀ i context, m.saved i = some context → InUse m.kernel context.owner

theorem OwnersUsed.moved (hinv : OwnersUsed m) (hrunning : after.running = m.running)
    (hsaved : after.saved = m.saved) (hused : UsedKept m.kernel after.kernel) :
    OwnersUsed after where
  running := by
    rw [hrunning]
    exact hused _ hinv.running
  owners i context hcontext := by
    rw [hsaved] at hcontext
    exact hused _ (hinv.owners i context hcontext)

theorem OwnersUsed.scheduleStep (hinv : OwnersUsed m) {call : ScheduleCall}
    {put : Option ScheduleCall → Stack} (hstep : m.scheduleStep call put = some after) :
    OwnersUsed after := by
  have hused := usedKept_scheduleStatement m.kernel call.stage
  rcases Machine.scheduleStep_cases hstep with ⟨later, hstatement, hafter⟩ |
    ⟨hstatement, hafter⟩ | ⟨old, p, -, hswitch⟩
  · rw [hstatement] at hused
    rw [hafter]
    exact hinv.moved rfl rfl hused
  · rw [hstatement] at hused
    rw [hafter]
    exact hinv.moved rfl rfl hused
  · obtain ⟨context, hcontext, rfl⟩ := Machine.switch_cases hswitch
    have hsaved : ∀ i loaded, Function.update m.saved old (some ⟨m.running,
        (m.setStack (put (some { call with stage := .resumed }))).stack⟩) i = some loaded →
          InUse m.kernel loaded.owner := by
      intro i loaded hi
      by_cases heq : i = old
      · rw [heq, Function.update_self] at hi
        exact Option.some.inj hi ▸ hinv.running
      · rw [Function.update_of_ne heq] at hi
        exact hinv.owners i loaded hi
    refine ⟨?_, hsaved⟩
    rcases hcontext with ⟨-, rfl⟩ | ⟨-, hcontext⟩
    · exact hinv.running
    · exact hinv.owners p context hcontext

theorem OwnersUsed.statement (hinv : OwnersUsed m) (hstep : m.statement = some after) :
    OwnersUsed after := by
  obtain ⟨hused, -⟩ := usedKept_refl m.kernel
  rcases Machine.statement_cases hstep with ⟨handler, handlers, -, hhandler⟩ |
    ⟨-, ⟨call, -, hcall⟩ | ⟨-, rfl⟩⟩
  · rw [Machine.handlerStep] at hhandler
    cases hstage : handler.stage with
    | schedule call =>
      rw [hstage] at hhandler
      exact hinv.scheduleStep hhandler
    | countdown =>
      rw [hstage] at hhandler
      obtain rfl := Option.some.inj hhandler
      exact hinv.moved rfl rfl (used_countdownAll m.kernel).1
    | _ =>
      rw [hstage] at hhandler
      obtain rfl := Option.some.inj hhandler
      exact hinv.moved rfl rfl hused
  · cases call with
    | schedule call =>
      have hschedule : m.scheduleStep call (fun later ↦
          { m.stack with call := later.map CallStage.schedule }) = some after := hcall
      exact hinv.scheduleStep hschedule
    | sleepStore ms =>
      obtain rfl := Option.some.inj hcall
      exact hinv.moved rfl rfl (usedKept_modifyCurrent _ fun _ h ↦ h)
    | sleepAtLeastOne =>
      obtain rfl := Option.some.inj hcall
      refine hinv.moved rfl rfl (usedKept_modifyCurrent _ fun process h ↦ ?_)
      split_ifs <;> exact h
    | sleepMark =>
      obtain rfl := Option.some.inj hcall
      exact hinv.moved rfl rfl (usedKept_modifyCurrent _ fun _ _ h ↦ ProcState.noConfusion h)
    | exitState code =>
      obtain rfl := Option.some.inj hcall
      exact hinv.moved rfl rfl (usedKept_modifyCurrent _ fun _ _ h ↦ ProcState.noConfusion h)
    | exitCode code =>
      obtain rfl := Option.some.inj hcall
      exact hinv.moved rfl rfl (usedKept_modifyCurrent _ fun _ h ↦ h)
  · rcases m.baseStep_cases with heq | heq
    · rw [heq]
      exact hinv
    · rw [heq]
      exact hinv.moved rfl rfl hused

variable {entryPoints : EntryPoints} {gate : Machine → Bool} {event : MachineEvent}

/-- A creation writes the stack of an entry that was not in use. -/
theorem OwnersUsed.created (hinv : OwnersUsed m) (base : Base)
    (hadded : ProcessAdded m.kernel k p) :
    OwnersUsed (m.created base (some p, k)) ∧ (m.created base (some p, k)).stack = m.stack := by
  have hne : m.running ≠ p := fun heq ↦ hinv.running (heq ▸ hadded.unused_before)
  have hused := usedKept_added hadded
  refine ⟨⟨hused _ hinv.running, fun i context hi ↦ ?_⟩, Function.update_of_ne hne ..⟩
  change Function.update m.saved p (some ⟨p, .fresh base⟩) i = some context at hi
  by_cases heq : i = p
  · rw [heq, Function.update_self] at hi
    rw [← Option.some.inj hi]
    change (k.procTable p).state ≠ .unused
    rw [hadded.used_after]
    exact ProcState.noConfusion
  · rw [Function.update_of_ne heq] at hi
    exact hused _ (hinv.owners i context hi)

/-- Every step keeps the owners in use. -/
theorem OwnersUsed.step (hinv : OwnersUsed m)
    (hstep : (timerSystem entryPoints gate).step m event after) : OwnersUsed after := by
  obtain ⟨hused, -⟩ := usedKept_refl m.kernel
  rcases timerStep_cases hstep with ⟨-, -, rfl⟩ | ⟨-, hstatement⟩ | ⟨made, -, -, hmade⟩
  · exact hinv.moved rfl rfl hused
  · exact hinv.statement hstatement
  · rcases CodeCall.perform_cases hmade with ⟨stage, -, rfl⟩ | ⟨p, rfl⟩ |
      ⟨base, result, hcreates, rfl⟩ | ⟨flag, base, rfl⟩
    · exact hinv.moved rfl rfl hused
    · exact hinv.moved rfl rfl (used_procWakeup p).1
    · rcases hcreates with rfl | ⟨p, k, rfl, hadded⟩
      · exact hinv.moved rfl rfl hused
      · exact (hinv.created base hadded).1
    · exact hinv.moved rfl rfl hused

theorem OwnersUsed.start (hstart : (timerSystem entryPoints gate).start m) : OwnersUsed m := by
  obtain ⟨procIdle, idleStack, shell, idle, k, hmain, rfl⟩ := hstart
  have hscheduler : SchedulerInvariant idle k idle :=
    SchedulerInvariant.start ⟨procIdle, idleStack, shell, hmain⟩
  refine ⟨?_, fun i context hi ↦ ?_⟩
  · change (k.procTable idle).state ≠ .unused
    rw [(hscheduler.running_iff idle).mpr rfl]
    exact ProcState.noConfusion
  · simp only [Machine.boot] at hi
    split_ifs at hi with hunused hidle
    · exact Option.some.inj hi ▸ hunused
    · exact Option.some.inj hi ▸ hunused

/-- A timer interrupt that does not schedule: its delivery and its five statements. -/
def quietTick : List MachineEvent :=
  .tick :: List.replicate 5 .statement

/-- Idle yields to the shell, and the timer interrupts between `current_proc = p` and the switch. -/
def interruptedYield : List MachineEvent :=
  [.own .yield] ++ List.replicate 6 .statement ++ quietTick ++ List.replicate 4 .statement

/-- Idle and the shell as `kernel_main` leaves them. -/
theorem start_twoReady (gate : Machine → Bool) :
    (timerSystem ⟨1#64, 2#64⟩ gate).start (.boot 0 twoReady) :=
  ⟨3#64, 0x400018#64, _, 0, twoReady, kernelMain_twoReady, rfl⟩

/-- Ten ticks: the tenth dispatches the shell, which has never run. -/
def firstDispatch : List MachineEvent :=
  (List.replicate 9 quietTick).flatten ++ [.tick] ++ List.replicate 13 .statement

/-- Idle as `kernel_main` leaves it without a shell. -/
theorem boot_idleAlone (gate : Machine → Bool) :
    (timerSystem ⟨1#64, 2#64⟩ gate).start (.boot 0 idleAlone) :=
  ⟨3#64, 0x400018#64, none, 0, idleAlone, rfl, rfl⟩

/-- `kernel_main` creates a process in kernel mode, and the tenth timer interrupt starts it. -/
def createdStarts : List MachineEvent :=
  [.own (.create 0x404018#64 [0x61#8] 5#64)] ++ (List.replicate 9 quietTick).flatten ++ [.tick] ++
    List.replicate 14 .statement

end InUse

/-! ### The statements of `schedule` run through -/

/-- The statements of `schedule` from a stage on, with nothing in between: the state they leave and
the switch they come to. -/
def scheduleThrough : ℕ → Kernel → ScheduleStage → Option (Kernel × Option ContextSwitch)
  | 0, _, _ => none
  | fuel + 1, k, stage =>
    match scheduleStatement k stage with
    | (k, .goto stage) => scheduleThrough fuel k stage
    | (k, .returned) => some (k, none)
    | (k, .switched old p) => some (k, some ⟨old, p⟩)

variable {k : Kernel} {old p : ProcIndex}

/-- A statement that goes on. -/
theorem scheduleThrough_goto {next : Kernel} {stage later : ScheduleStage} {fuel : ℕ}
    (hstatement : scheduleStatement k stage = (next, .goto later)) :
    scheduleThrough (fuel + 1) k stage = scheduleThrough fuel next later := by
  rw [scheduleThrough, hstatement]

/-- From the assignment of `current_proc` to the switch. -/
theorem scheduleThrough_setCurrent (k : Kernel) (old p : ProcIndex) (fuel : ℕ) :
    scheduleThrough (fuel + 5) k (.setCurrent old p) = some (dispatch k p, some ⟨old, p⟩) :=
  rfl

/-- The search from iteration `n` on. -/
theorem scheduleThrough_scan (k : Kernel) (old : ProcIndex) (left : ℕ) :
    ∀ n, n + left = procMax + 1 →
      scheduleThrough (left + 7) k (.scan old n) =
        match (List.range' n left).find? fun offset ↦
            (k.procTable (Fin.ofNat procMax (old + offset))).state == .ready with
        | some offset =>
          some (dispatch k (Fin.ofNat procMax (old + offset)),
            some ⟨old, Fin.ofNat procMax (old + offset)⟩)
        | none =>
          some (if (k.procTable old).state = .ready then
            k.modify old fun process ↦ { process with state := .running } else k, none) := by
  induction left with
  | zero =>
    intro n hn
    have hend : scheduleStatement k (.scan old n) = (k, .goto (.noneReady old)) := by
      rw [scheduleStatement, if_neg (by omega)]
    rw [scheduleThrough_goto hend]
    rfl
  | succ left ih =>
    intro n hn
    rw [List.range'_succ, List.find?_cons]
    by_cases hready : (k.procTable (Fin.ofNat procMax (old + n))).state = .ready
    · have hfound : scheduleStatement k (.scan old n) =
          (k, .goto (.setCurrent old (Fin.ofNat procMax (old + n)))) := by
        rw [scheduleStatement, if_pos (by omega)]
        exact if_pos hready
      rw [scheduleThrough_goto hfound, hready]
      exact scheduleThrough_setCurrent k old _ _
    · have hpassed : scheduleStatement k (.scan old n) = (k, .goto (.scan old (n + 1))) := by
        rw [scheduleStatement, if_pos (by omega)]
        exact if_neg hready
      rw [scheduleThrough_goto hpassed, beq_false_of_ne hready]
      exact ih (n + 1) (by omega)

/-- The search of `schedule` is the cyclic search from behind `old`. -/
theorem nextReady_eq_range' (k : Kernel) (old : ProcIndex) :
    nextReady k old = ((List.range' 1 procMax).find? fun offset ↦
      (k.procTable (Fin.ofNat procMax (old + offset))).state == .ready).map fun offset ↦
        Fin.ofNat procMax (old + offset) := by
  have hindex : ∀ offset : ℕ, Fin.ofNat procMax ((old + 1 + offset) % procMax) =
      Fin.ofNat procMax (old + (1 + offset)) := by
    intro offset
    rw [← Nat.add_assoc]
    exact Fin.ext (Nat.mod_mod ..)
  rw [nextReady, cyclicFind, List.range'_eq_map_range, List.find?_map, List.find?_map,
    Option.map_map, Option.map_map]
  simp only [Function.comp_def, hindex]

/-- The statements of `schedule`, run through, are the state change of `schedule`. -/
theorem schedule_statements (k : Kernel) :
    ∃ fuel, scheduleThrough fuel k .start = some (schedule k) := by
  cases hcurrent : k.currentProc with
  | none =>
    refine ⟨1, ?_⟩
    rw [schedule, hcurrent, scheduleThrough, scheduleStatement, if_pos hcurrent]
  | some old =>
    have hscan : ∃ fuel, scheduleThrough fuel k .start =
        scheduleThrough (procMax + 7) (requeue k old) (.scan old 1) := by
      have hstart : scheduleStatement k .start = (k, .goto .requeueTest) := by
        rw [scheduleStatement, hcurrent]
        rfl
      have htake : ∀ next : Kernel, next.currentProc = some old →
          scheduleStatement next .takeOld = (next, .goto (.scan old 1)) := by
        intro next hnext
        rw [scheduleStatement, hnext]
      by_cases hrunning : (k.procTable old).state = .running
      · have htest : scheduleStatement k .requeueTest = (k, .goto .requeue) := by
          simp [scheduleStatement, hcurrent, hrunning]
        have hrequeue : scheduleStatement k .requeue = (requeue k old, .goto .takeOld) := by
          rw [scheduleStatement, modifyCurrent, hcurrent, requeue, if_pos hrunning]
        have hsame : (requeue k old).currentProc = some old := by
          rw [requeue, if_pos hrunning]
          exact hcurrent
        refine ⟨procMax + 7 + 4, ?_⟩
        rw [scheduleThrough_goto hstart, scheduleThrough_goto htest,
          scheduleThrough_goto hrequeue, scheduleThrough_goto (htake _ hsame)]
      · have htest : scheduleStatement k .requeueTest = (k, .goto .takeOld) := by
          simp [scheduleStatement, hcurrent, hrunning]
        refine ⟨procMax + 7 + 3, ?_⟩
        rw [requeue, if_neg hrunning, scheduleThrough_goto hstart, scheduleThrough_goto htest,
          scheduleThrough_goto (htake k hcurrent)]
    obtain ⟨fuel, hfuel⟩ := hscan
    refine ⟨fuel, ?_⟩
    rw [hfuel, scheduleThrough_scan _ _ _ 1 (Nat.add_comm ..)]
    rw [schedule_of_current hcurrent, nextReady_eq_range']
    cases (List.range' 1 procMax).find? fun offset ↦
      ((requeue k old).procTable (Fin.ofNat procMax (old + offset))).state == .ready with
    | some offset => rfl
    | none =>
      simp only [Option.map_none]
      split_ifs <;> rfl

end Colix.Proc
