import Colix.Proc.TimerPreemption

/-!
# The interrupt flag across a switch

`switch_context` saves no flags, so the process that goes on has the interrupt flag of the one that
switched. `FlagSwitch` is the condition under which every process gets its own back: a switch goes
to a process that entered `schedule` with the same interrupt flag, or that has never run.
`interrupt_flag_run` shows that it is exact for the next step.
-/

set_option autoImplicit false
set_option relaxedAutoImplicit false

namespace Colix.Proc

open Foundation

/-! ### The property -/

/-- Behind its `switch_context`, `schedule` returns with the interrupt flag it was entered with. -/
def FlagReturned (m : Machine) : Prop :=
  ∀ call, m.stack.scheduling = some call → call.stage = .resumed → m.interruptFlag = call.flag

/-- A switch goes to a process that has never run, or that entered `schedule` with the interrupt
flag of the switch. -/
def FlagSwitch (m : Machine) (event : MachineEvent) : Prop :=
  ∀ call old p context, event = .statement → m.stack.scheduling = some call →
    call.stage = .switch old p → p ≠ old → m.saved p = some context →
      ∀ suspended ∈ context.stack.scheduling, m.interruptFlag = suspended.flag

/-! ### The invariant -/

/-- A timer interrupt returns to a call of `schedule` with the interrupt flag it was entered
with. -/
def NestedFlags (call : Option CallStage) : List Handler → Prop
  | [] => True
  | handler :: handlers =>
    (∀ made ∈ (Stack.mk .code call handlers).scheduling, handler.flag = made.flag) ∧
      NestedFlags call handlers

/-- A stack that was switched away from: its latest call is behind the switch. -/
structure SuspendedFlags (stack : Stack) : Prop where
  nested : NestedFlags stack.call stack.handlers
  resumed : ∀ call ∈ stack.scheduling, call.stage = .resumed

/-- The running call of `schedule` has its interrupt flag, and those under it will have theirs. -/
structure FlagInvariant (m : Machine) : Prop where
  running : ∀ call ∈ m.stack.scheduling, m.interruptFlag = call.flag
  nested : NestedFlags m.stack.call m.stack.handlers
  saved : ∀ i context, m.saved i = some context → SuspendedFlags context.stack

variable {m after : Machine} {stack : Stack} {k : Kernel} {call : ScheduleCall}

/-- `FlagSwitch` as a computation. -/
def flagSwitch (m : Machine) (event : MachineEvent) : Bool :=
  !event.isStatement ||
    m.stack.scheduling.all fun call ↦ call.stage.switchTo.all fun made ↦
      made.new == made.old || (m.saved made.new).all fun context ↦
        context.stack.scheduling.all fun suspended ↦ m.interruptFlag == suspended.flag

theorem flagSwitch_iff {event : MachineEvent} :
    flagSwitch m event = true ↔ FlagSwitch m event := by
  rw [flagSwitch, Bool.or_eq_true, Bool.not_eq_true', ← Bool.not_eq_true, ← imp_iff_not_or,
    Option.all_eq_true]
  constructor
  · rintro hall call old p context rfl hcall hstage hne hcontext suspended hsuspended
    have hmade := (Option.all_eq_true _ _).mp (hall rfl call hcall) ⟨old, p⟩
      (ScheduleStage.switchTo_iff.mpr hstage)
    rw [Bool.or_eq_true, beq_iff_eq] at hmade
    have hflag := (Option.all_eq_true _ _).mp (hmade.resolve_left hne) context hcontext
    exact beq_iff_eq.mp ((Option.all_eq_true _ _).mp hflag suspended hsuspended)
  · intro hswitch hevent call hcall
    refine (Option.all_eq_true _ _).mpr fun made hmade ↦ ?_
    rw [Bool.or_eq_true, beq_iff_eq, or_iff_not_imp_left]
    refine fun hne ↦ (Option.all_eq_true _ _).mpr fun context hcontext ↦ ?_
    refine (Option.all_eq_true _ _).mpr fun suspended hsuspended ↦ beq_iff_eq.mpr ?_
    cases event <;> cases hevent
    exact hswitch call made.old made.new context rfl hcall (ScheduleStage.switchTo_iff.mp hmade)
      hne hcontext suspended hsuspended

instance (m : Machine) (event : MachineEvent) : Decidable (FlagSwitch m event) :=
  decidable_of_iff _ flagSwitch_iff

theorem FlagInvariant.returned (hinv : FlagInvariant m) : FlagReturned m :=
  fun call hcall _ ↦ hinv.running call hcall

/-! ### Steps -/

/-- A step that is not a switch meets the condition. -/
theorem FlagSwitch.of_not_switch {event : MachineEvent}
    (hother : ∀ call old p, m.stack.scheduling = some call → call.stage ≠ .switch old p) :
    FlagSwitch m event :=
  fun call old p _ _ hcall hstage ↦ absurd hstage (hother call old p hcall)

theorem FlagSwitch.of_event {event : MachineEvent} (hother : event ≠ .statement) :
    FlagSwitch m event :=
  fun _ _ _ _ hevent ↦ absurd hevent hother

/-- A step that moves the running process alone. -/
theorem FlagInvariant.setStack (hinv : FlagInvariant m) {flag service : Bool}
    (hrunning : ∀ call ∈ stack.scheduling, flag = call.flag)
    (hnested : NestedFlags stack.call stack.handlers) :
    FlagInvariant ({ m with kernel := k, interruptFlag := flag, inService := service }.setStack
      stack) where
  running := by
    rw [Machine.setStack_stack]
    exact hrunning
  nested := by
    rw [Machine.setStack_stack]
    exact hnested
  saved := hinv.saved

/-- The switch. -/
theorem FlagInvariant.switch (hinv : FlagInvariant m) {old p : ProcIndex}
    (hstack : SuspendedFlags stack) (hown : ∀ call ∈ stack.scheduling, m.interruptFlag = call.flag)
    (hswitch : (m.setStack stack).switch old p = some after) :
    (FlagReturned after → p ≠ old → ∀ context, m.saved p = some context →
        ∀ suspended ∈ context.stack.scheduling, m.interruptFlag = suspended.flag) ∧
      ((p ≠ old → ∀ context, m.saved p = some context →
        ∀ suspended ∈ context.stack.scheduling, m.interruptFlag = suspended.flag) →
          FlagInvariant after) := by
  obtain ⟨context, hcontext, rfl⟩ := Machine.switch_cases hswitch
  have hafter : Machine.stack { m.setStack stack with
      running := context.owner
      stackOf := Function.update (m.setStack stack).stackOf context.owner context.stack
      saved := Function.update (m.setStack stack).saved old
        (some ⟨(m.setStack stack).running, (m.setStack stack).stack⟩) } = context.stack :=
    Function.update_self ..
  constructor
  · intro hreturned hne other hother suspended hsuspended
    rcases hcontext with ⟨heq, -⟩ | ⟨-, hcontext⟩
    · exact absurd heq hne
    · obtain rfl : context = other := Option.some.inj (hcontext.symm.trans hother)
      refine hreturned suspended ?_ ((hinv.saved p context hother).resumed suspended hsuspended)
      rw [hafter]
      exact hsuspended
  · intro hcondition
    have hloaded : SuspendedFlags context.stack ∧
        ∀ call ∈ context.stack.scheduling, m.interruptFlag = call.flag := by
      rcases hcontext with ⟨-, rfl⟩ | ⟨hne, hcontext⟩
      · rw [Machine.setStack_stack]
        exact ⟨hstack, hown⟩
      · exact ⟨hinv.saved p context hcontext, hcondition hne context hcontext⟩
    refine ⟨?_, ?_, fun i other hi ↦ ?_⟩
    · rw [hafter]
      exact hloaded.2
    · rw [hafter]
      exact hloaded.1.nested
    · dsimp only at hi
      by_cases heq : i = old
      · rw [heq, Function.update_self, Machine.setStack_stack] at hi
        rw [← Option.some.inj hi]
        exact hstack
      · rw [Function.update_of_ne heq] at hi
        exact hinv.saved i other hi

/-- What a step does to the invariant: the condition keeps it, and the property needs the
condition. -/
def FlagStep (m : Machine) (event : MachineEvent) (after : Machine) : Prop :=
  (FlagReturned after → FlagSwitch m event) ∧ (FlagSwitch m event → FlagInvariant after)

theorem FlagStep.of_kept {event : MachineEvent} (hswitch : FlagSwitch m event)
    (hafter : FlagInvariant after) : FlagStep m event after :=
  ⟨fun _ ↦ hswitch, fun _ ↦ hafter⟩

/-- A statement of `schedule`. -/
theorem FlagInvariant.scheduleStep (hinv : FlagInvariant m) {put : Option ScheduleCall → Stack}
    (hcall : m.stack.scheduling = some call)
    (hput : ∀ later, (put later).scheduling = later)
    (hnested : ∀ later, NestedFlags (put later).call (put later).handlers)
    (hstep : m.scheduleStep call put = some after) : FlagStep m .statement after := by
  have hflag := hinv.running call hcall
  have hgoes : ∀ outcome, scheduleStatement m.kernel call.stage = (after.kernel, outcome) →
      (∀ old p, outcome ≠ .switched old p) → FlagSwitch m .statement := by
    intro outcome hstatement hother
    refine .of_not_switch fun latest old p hlatest hstage ↦ ?_
    obtain rfl := Option.some.inj (hcall.symm.trans hlatest)
    rw [hstage] at hstatement
    exact hother old p (Prod.mk.inj hstatement).2.symm
  rcases Machine.scheduleStep_cases hstep with ⟨stage, hstatement, hafter⟩ |
    ⟨hstatement, hafter⟩ | ⟨old, p, hstage, hswitch⟩
  · refine .of_kept (hgoes _ hstatement nofun) ?_
    rw [hafter]
    refine hinv.setStack (fun latest hlatest ↦ ?_) (hnested _)
    rw [hput] at hlatest
    rw [← Option.some.inj hlatest]
    exact hflag
  · refine .of_kept (hgoes _ hstatement nofun) ?_
    rw [hafter]
    refine hinv.setStack (fun latest hlatest ↦ ?_) (hnested _)
    rw [hput] at hlatest
    cases hlatest
  · have hstack : SuspendedFlags (put (some { call with stage := .resumed })) := by
      refine ⟨hnested _, fun latest hlatest ↦ ?_⟩
      rw [hput] at hlatest
      rw [← Option.some.inj hlatest]
    have hown : ∀ latest ∈ (put (some { call with stage := .resumed })).scheduling,
        m.interruptFlag = latest.flag := by
      intro latest hlatest
      rw [hput] at hlatest
      rw [← Option.some.inj hlatest]
      exact hflag
    obtain ⟨hneeds, hkeeps⟩ := hinv.switch hstack hown hswitch
    constructor
    · rintro hreturned latest old' p' context - hlatest hstage' hne hcontext
      obtain rfl := Option.some.inj (hcall.symm.trans hlatest)
      rw [hstage] at hstage'
      cases hstage'
      exact hneeds hreturned hne context hcontext
    · intro hcondition
      exact hkeeps fun hne context hcontext ↦
        hcondition call old p context rfl hcall hstage hne hcontext

/-- A statement of the timer interrupt on top of the running stack. -/
theorem FlagInvariant.handlerStep (hinv : FlagInvariant m) {handler : Handler}
    {handlers : List Handler} (hhandlers : m.stack.handlers = handler :: handlers)
    (hstep : m.handlerStep handler handlers = some after) : FlagStep m .statement after := by
  have hnested := hinv.nested
  rw [hhandlers] at hnested
  obtain ⟨hunder, hbelow⟩ := hnested
  have hscheduling : m.stack.scheduling = handler.stage.scheduleCall := by
    rw [Stack.scheduling, hhandlers]
  have hquiet : handler.stage.scheduleCall = none → FlagInvariant after →
      FlagStep m .statement after := by
    intro hnone
    refine .of_kept (.of_not_switch fun call old p hcall ↦ ?_)
    rw [hscheduling, hnone] at hcall
    cases hcall
  have hput : ∀ stage : HandlerStage,
      NestedFlags m.stack.call ({ handler with stage := stage } :: handlers) :=
    fun _ ↦ ⟨hunder, hbelow⟩
  rw [Machine.handlerStep] at hstep
  cases hstage : handler.stage with
  | clock =>
    rw [hstage] at hstep hquiet
    obtain rfl := Option.some.inj hstep
    exact hquiet rfl (hinv.setStack (fun call hcall ↦ by cases hcall) (hput .countdown))
  | countdown =>
    rw [hstage] at hstep hquiet
    obtain rfl := Option.some.inj hstep
    exact hquiet rfl (hinv.setStack (fun call hcall ↦ by cases hcall) (hput .test))
  | test =>
    rw [hstage] at hstep hquiet
    obtain rfl := Option.some.inj hstep
    refine hquiet rfl ?_
    split_ifs
    · refine hinv.setStack (fun call hcall ↦ ?_) (hput (.schedule ⟨m.interruptFlag, .start⟩))
      rw [← Option.some.inj hcall]
    · exact hinv.setStack (fun call hcall ↦ by cases hcall) (hput .eoi)
  | schedule call =>
    rw [hstage] at hstep hscheduling
    refine hinv.scheduleStep hscheduling (fun later ↦ ?_) (fun later ↦ hput _) hstep
    cases later <;> rfl
  | eoi =>
    rw [hstage] at hstep hquiet
    obtain rfl := Option.some.inj hstep
    exact hquiet rfl (hinv.setStack (fun call hcall ↦ by cases hcall) (hput .iret))
  | iret =>
    rw [hstage] at hstep hquiet
    obtain rfl := Option.some.inj hstep
    exact hquiet rfl (hinv.setStack hunder hbelow)

/-- A statement of a call that the running process made. -/
theorem FlagInvariant.callStep (hinv : FlagInvariant m) {stage : CallStage}
    (hhandlers : m.stack.handlers = []) (hcall : m.stack.call = some stage)
    (hstep : m.callStep stage = some after) : FlagStep m .statement after := by
  have hscheduling : m.stack.scheduling = stage.scheduleCall := by
    rw [Stack.scheduling, hhandlers, hcall]
    rfl
  have hquiet : stage.scheduleCall = none → FlagInvariant after → FlagStep m .statement after := by
    intro hnone
    refine .of_kept (.of_not_switch fun call old p hcall ↦ ?_)
    rw [hscheduling, hnone] at hcall
    cases hcall
  have hnested : ∀ call, NestedFlags call m.stack.handlers := by
    rw [hhandlers]
    exact fun _ ↦ trivial
  have hput : ∀ later : CallStage, ({ m.stack with call := some later } : Stack).scheduling =
      later.scheduleCall := by
    intro later
    rw [Stack.scheduling, hhandlers]
    rfl
  have hcalled : ∀ later : ScheduleCall, later.flag = m.interruptFlag →
      ∀ made ∈ ({ m.stack with call := some (.schedule later) } : Stack).scheduling,
        m.interruptFlag = made.flag := by
    intro later hflag made hmade
    rw [hput] at hmade
    rw [← Option.some.inj hmade, hflag]
  have hnoCall : ∀ later : CallStage, later.scheduleCall = none →
      ∀ made ∈ ({ m.stack with call := some later } : Stack).scheduling,
        m.interruptFlag = made.flag := by
    intro later hnone made hmade
    rw [hput, hnone] at hmade
    cases hmade
  cases stage with
  | schedule call =>
    have hschedule : m.scheduleStep call (fun later ↦
        { m.stack with call := later.map CallStage.schedule }) = some after := hstep
    refine hinv.scheduleStep hscheduling (fun later ↦ ?_)
      (fun later ↦ hnested (later.map CallStage.schedule)) hschedule
    rw [Stack.scheduling, hhandlers]
    cases later <;> rfl
  | sleepStore ms =>
    obtain rfl := Option.some.inj hstep
    exact hquiet rfl (hinv.setStack (hnoCall .sleepAtLeastOne rfl) (hnested _))
  | sleepAtLeastOne =>
    obtain rfl := Option.some.inj hstep
    exact hquiet rfl (hinv.setStack (hnoCall .sleepMark rfl) (hnested _))
  | sleepMark =>
    obtain rfl := Option.some.inj hstep
    exact hquiet rfl (hinv.setStack (hcalled _ rfl) (hnested _))
  | exitState code =>
    obtain rfl := Option.some.inj hstep
    exact hquiet rfl (hinv.setStack (hnoCall (.exitCode code) rfl) (hnested _))
  | exitCode code =>
    obtain rfl := Option.some.inj hstep
    exact hquiet rfl (hinv.setStack (hcalled _ rfl) (hnested _))

/-- A stack on which `schedule` is not running. -/
theorem FlagInvariant.quiet (hinv : FlagInvariant m) {flag : Bool} {base : Base}
    (hcall : m.stack.call = none) (hhandlers : m.stack.handlers = []) :
    FlagInvariant ({ m with interruptFlag := flag }.setStack { m.stack with base := base }) := by
  refine hinv.setStack (fun made hmade ↦ ?_) ?_
  · rw [Stack.scheduling, hhandlers, hcall] at hmade
    cases hmade
  · exact hinv.nested

/-- The next statement. -/
theorem FlagInvariant.statement (hinv : FlagInvariant m) (hstep : m.statement = some after) :
    FlagStep m .statement after := by
  rcases Machine.statement_cases hstep with ⟨handler, handlers, hhandlers, hhandler⟩ |
    ⟨hhandlers, ⟨call, hcall, hmade⟩ | ⟨hcall, rfl⟩⟩
  · exact hinv.handlerStep hhandlers hhandler
  · exact hinv.callStep hhandlers hcall hmade
  · refine .of_kept (.of_not_switch fun call old p hsome ↦ ?_) ?_
    · rw [Stack.scheduling, hhandlers, hcall] at hsome
      cases hsome
    · rcases m.baseStep_cases with heq | heq
      · rw [heq]
        exact hinv
      · rw [heq]
        exact hinv.quiet hcall hhandlers

/-- A creation. -/
theorem FlagInvariant.created (hinv : FlagInvariant m) (hused : OwnersUsed m) (base : Base)
    {p : ProcIndex} (hadded : ProcessAdded m.kernel k p) :
    FlagInvariant (m.created base (some p, k)) := by
  obtain ⟨-, hstack⟩ := hused.created base hadded
  refine ⟨?_, ?_, fun i context hi ↦ ?_⟩
  · rw [hstack]
    exact hinv.running
  · rw [hstack]
    exact hinv.nested
  · change Function.update m.saved p (some ⟨p, .fresh base⟩) i = some context at hi
    by_cases heq : i = p
    · rw [heq, Function.update_self] at hi
      rw [← Option.some.inj hi]
      exact ⟨trivial, nofun⟩
    · rw [Function.update_of_ne heq] at hi
      exact hinv.saved i context hi

variable {entryPoints : EntryPoints} {gate : Machine → Bool} {event : MachineEvent}

/-- Every step. -/
theorem FlagInvariant.step (hinv : FlagInvariant m) (hused : OwnersUsed m)
    (hstep : (timerSystem entryPoints gate).step m event after) : FlagStep m event after := by
  rcases timerStep_cases hstep with ⟨rfl, -, rfl⟩ | ⟨rfl, hstatement⟩ | ⟨made, rfl, hcode, hmade⟩
  · refine .of_kept (.of_event nofun) (hinv.setStack nofun ⟨hinv.running, hinv.nested⟩)
  · exact hinv.statement hstatement
  · refine .of_kept (.of_event nofun) ?_
    obtain ⟨hcall, hhandlers⟩ := Stack.atCode_cases hcode
    rcases CodeCall.perform_cases hmade with ⟨stage, hstage, rfl⟩ | ⟨p, rfl⟩ |
      ⟨base, result, hcreates, rfl⟩ | ⟨flag, base, rfl⟩
    · refine hinv.setStack (fun call hsome ↦ ?_) ?_
      · have hentered : stage.scheduleCall = some call := by
          rw [Stack.scheduling, hhandlers] at hsome
          exact hsome
        rcases hstage with hnone | hstart
        · rw [hnone] at hentered
          cases hentered
        · rw [hstart] at hentered
          rw [← Option.some.inj hentered]
      · rw [hhandlers]
        exact trivial
    · exact ⟨hinv.running, hinv.nested, hinv.saved⟩
    · rcases hcreates with rfl | ⟨p, k, rfl, hadded⟩
      · exact ⟨hinv.running, hinv.nested, hinv.saved⟩
      · exact hinv.created hused base hadded
    · exact hinv.quiet hcall hhandlers

/-! ### Runs -/

theorem FlagInvariant.start (hstart : (timerSystem entryPoints gate).start m) :
    FlagInvariant m := by
  obtain ⟨procIdle, idleStack, shell, idle, k, -, rfl⟩ := hstart
  have hstack : (Machine.boot idle k).stack = .fresh .code := if_pos rfl
  refine ⟨?_, ?_, fun i context hi ↦ ?_⟩
  · rw [hstack]
    intro call hcall
    cases hcall
  · rw [hstack]
    exact trivial
  · simp only [Machine.boot] at hi
    split_ifs at hi
    · rw [← Option.some.inj hi]
      exact ⟨trivial, fun call hcall ↦ by cases hcall⟩
    · rw [← Option.some.inj hi]
      exact ⟨trivial, fun call hcall ↦ by cases hcall⟩

/-- The run lemma. -/
theorem FlagInvariant.of_run {events : List MachineEvent}
    (hrun : ((timerSystem entryPoints gate).restrict FlagSwitch).Run events m) :
    FlagInvariant m ∧ OwnersUsed m := by
  refine hrun.invariant (motive := fun m ↦ FlagInvariant m ∧ OwnersUsed m)
    (fun state hstart ↦ ?_) ?_
  · have horigin : (timerSystem entryPoints gate).start state := hstart
    exact ⟨.start horigin, OwnersUsed.start horigin⟩
  rintro state event next ⟨hinv, hused⟩ ⟨hswitch, hstep⟩
  exact ⟨(hinv.step hused hstep).2 hswitch, hused.step hstep⟩

/-- In every state of a run whose switches meet the condition, whenever the timer is let in, the
call of `schedule` that a process comes back into returns with the interrupt flag it was entered
with; and the next step keeps that exactly when it meets the condition. -/
theorem interrupt_flag_run {events : List MachineEvent}
    (hrun : ((timerSystem entryPoints gate).restrict FlagSwitch).Run events m) :
    FlagReturned m ∧ ∀ event after, (timerSystem entryPoints gate).step m event after →
      (FlagReturned after ↔ FlagSwitch m event) := by
  obtain ⟨hinv, hused⟩ := FlagInvariant.of_run hrun
  refine ⟨hinv.returned, fun event after hstep ↦ ?_⟩
  obtain ⟨hneeds, hkeeps⟩ := hinv.step hused hstep
  exact ⟨hneeds, fun hswitch ↦ (hkeeps hswitch).returned⟩

/-- Idle creates a kernel-mode process and yields to it, and the process yields back. -/
def yieldBack : List MachineEvent :=
  [.own (.create 0x404018#64 [0x61#8] 5#64), .own .yield] ++ List.replicate 11 .statement ++
    [.own .yield] ++ List.replicate (procMax + 8) .statement

/-- The condition holds of a run in which two processes yield to each other. -/
def returnedState : Option Machine :=
  yieldBack.foldlM (fun m event ↦
    if FlagSwitch m event then event.perform ⟨1#64, 2#64⟩ hardwareGate m else none)
    (.boot 0 idleAlone)

theorem returnedState_isSome : returnedState.isSome = true := by
  decide +kernel

theorem interrupt_flag_run_yields : ∃ (m : Machine) (call : ScheduleCall), m.running = 0 ∧
    m.stack.scheduling = some call ∧ call.flag = true ∧ m.interruptFlag = true := by
  have hrun := TransitionSystem.Run.restrict_of_get (boot_idleAlone hardwareGate)
    returnedState_isSome
  have hcall : (returnedState.get returnedState_isSome).stack.scheduling =
      some ⟨true, .resumed⟩ := by
    decide +kernel
  exact ⟨returnedState.get returnedState_isSome, ⟨true, .resumed⟩, by decide +kernel, hcall, rfl,
    (interrupt_flag_run hrun).1 ⟨true, .resumed⟩ hcall rfl⟩

/-- The process yields to idle, and the tenth tick in idle's loop switches back. -/
def disabledReturn : List MachineEvent :=
  createdStarts ++ [.own .yield] ++ List.replicate (procMax + 11) .statement ++
    (List.replicate 9 quietTick).flatten ++ [.tick] ++ List.replicate 13 .statement

def disabledState : Option Machine :=
  disabledReturn.foldlM (MachineEvent.perform ⟨1#64, 2#64⟩ hardwareGate) (.boot 0 idleAlone)

theorem disabledState_isSome : disabledState.isSome = true := by
  decide +kernel

/-- The process yielded with interrupts enabled, and its call returns with interrupts disabled. -/
theorem return_disabled : ¬ ∀ entryPoints gate events m,
    (timerSystem entryPoints gate).Run events m → FlagReturned m := by
  intro hall
  have hrun := TransitionSystem.Run.of_get (boot_idleAlone hardwareGate) disabledState_isSome
  have hreturned := hall _ _ _ _ hrun
  have hcall : (disabledState.get disabledState_isSome).stack.scheduling =
      some ⟨true, .resumed⟩ := by
    decide +kernel
  have hflag : (disabledState.get disabledState_isSome).interruptFlag = true :=
    hreturned ⟨true, .resumed⟩ hcall rfl
  have hclear : (disabledState.get disabledState_isSome).interruptFlag = false := by
    decide +kernel
  rw [hclear] at hflag
  cases hflag

end Colix.Proc
