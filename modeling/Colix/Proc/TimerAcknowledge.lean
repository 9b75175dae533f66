import Colix.Proc.TimerPreemption

/-!
# Where the timer interrupt is acknowledged

`interrupt_dispatch` sends the end-of-interrupt after `sched_tick`, and `sched_tick` may have
switched to another process by then. `AcknowledgedSwitch` is the condition under which the timer
interrupt is in service only on a stack whose own interrupt has still to be acknowledged: a switch
made with the interrupt in service goes to a process suspended in a timer interrupt itself.
`acknowledged_run` shows that it is exact for the next step.
-/

set_option autoImplicit false
set_option relaxedAutoImplicit false

namespace Colix.Proc

open Foundation

/-! ### The property -/

/-- A timer interrupt has not reached its acknowledgement. -/
def HandlerStage.beforeEoi : HandlerStage → Bool
  | .iret => false
  | _ => true

/-- A stack with a timer interrupt that has still to be acknowledged. -/
def Stack.serving (stack : Stack) : Bool :=
  stack.handlers.any fun handler ↦ handler.stage.beforeEoi

/-- The code on a stack is not in `interrupt_dispatch`. -/
def Stack.outsideDispatch (stack : Stack) : Bool :=
  match stack.base, stack.handlers with
  | .syscall _, _ => false
  | _, handlers => handlers.isEmpty

/-- While the timer interrupt is in service, the processor is in a timer interrupt before its
acknowledgement. -/
def Served (m : Machine) : Prop :=
  m.inService = true → m.stack.serving = true

/-- A switch made while the timer interrupt is in service goes to a process that was suspended in a
timer interrupt. -/
def AcknowledgedSwitch (m : Machine) (event : MachineEvent) : Prop :=
  ∀ call old p context, event = .statement → m.inService = true →
    m.stack.scheduling = some call → call.stage = .switch old p → p ≠ old →
      m.saved p = some context → context.stack.serving = true

variable {m after : Machine} {stack : Stack} {k : Kernel} {call : ScheduleCall}

/-- `AcknowledgedSwitch` as a computation. -/
def acknowledgedSwitch (m : Machine) (event : MachineEvent) : Bool :=
  !(event.isStatement && m.inService) ||
    m.stack.scheduling.all fun call ↦ call.stage.switchTo.all fun made ↦
      made.new == made.old || (m.saved made.new).all fun context ↦ context.stack.serving

theorem acknowledgedSwitch_iff {event : MachineEvent} :
    acknowledgedSwitch m event = true ↔ AcknowledgedSwitch m event := by
  rw [acknowledgedSwitch, Bool.or_eq_true, Bool.not_eq_true', ← Bool.not_eq_true,
    Bool.and_eq_true, ← imp_iff_not_or, Option.all_eq_true]
  constructor
  · rintro hall call old p context rfl hservice hcall hstage hne hcontext
    have hmade := (Option.all_eq_true _ _).mp (hall ⟨rfl, hservice⟩ call hcall) ⟨old, p⟩
      (ScheduleStage.switchTo_iff.mpr hstage)
    rw [Bool.or_eq_true, beq_iff_eq] at hmade
    exact (Option.all_eq_true _ _).mp (hmade.resolve_left hne) context hcontext
  · rintro hswitch ⟨hevent, hservice⟩ call hcall
    refine (Option.all_eq_true _ _).mpr fun made hmade ↦ ?_
    rw [Bool.or_eq_true, beq_iff_eq, or_iff_not_imp_left]
    refine fun hne ↦ (Option.all_eq_true _ _).mpr fun context hcontext ↦ ?_
    cases event <;> cases hevent
    exact hswitch call made.old made.new context rfl hservice hcall
      (ScheduleStage.switchTo_iff.mp hmade) hne hcontext

instance (m : Machine) (event : MachineEvent) : Decidable (AcknowledgedSwitch m event) :=
  decidable_of_iff _ acknowledgedSwitch_iff

/-- Outside `interrupt_dispatch` there is no timer interrupt. -/
theorem Stack.serving_of_outside (houtside : stack.outsideDispatch = true) :
    stack.serving = false := by
  obtain ⟨base, call, _ | ⟨handler, handlers⟩⟩ := stack
  · rfl
  · cases base <;> cases houtside

/-! ### Steps -/

/-- A step that leaves the timer interrupts on the running stack to be acknowledged. -/
theorem Served.moved (hserved : Served m) (hservice : after.inService = m.inService)
    (hserving : after.stack.serving = m.stack.serving) : Served after := by
  rw [Served, hservice, hserving]
  exact hserved

theorem Served.setStack (hserved : Served m) {flag : Bool}
    (hserving : stack.serving = m.stack.serving) :
    Served ({ m with kernel := k, interruptFlag := flag }.setStack stack) := by
  refine hserved.moved rfl ?_
  rw [Machine.setStack_stack]
  exact hserving

/-- The switch. -/
theorem Served.switch_iff (hserved : Served m) {old p : ProcIndex}
    (hserving : stack.serving = m.stack.serving)
    (hswitch : (m.setStack stack).switch old p = some after) :
    Served after ↔ (m.inService = true → p ≠ old → ∀ context, m.saved p = some context →
      context.stack.serving = true) := by
  obtain ⟨context, hcontext, rfl⟩ := Machine.switch_cases hswitch
  have hafter : ∀ context : SavedContext, (Machine.stack { m.setStack stack with
      running := context.owner
      stackOf := Function.update (m.setStack stack).stackOf context.owner context.stack
      saved := Function.update (m.setStack stack).saved old
        (some ⟨(m.setStack stack).running, (m.setStack stack).stack⟩) }) = context.stack :=
    fun context ↦ Function.update_self ..
  rw [Served, hafter]
  rcases hcontext with ⟨heq, rfl⟩ | ⟨hne, hcontext⟩
  · refine iff_of_true ?_ fun _ hne ↦ absurd heq hne
    rw [Machine.setStack_stack, hserving]
    exact hserved
  · constructor
    · intro hkept hservice _ other hother
      have hcontext' : m.saved p = some context := hcontext
      rw [hcontext', Option.some.injEq] at hother
      exact hother ▸ hkept hservice
    · exact fun hkept hservice ↦ hkept hservice hne context hcontext

/-- A step that is not a switch meets the condition. -/
theorem AcknowledgedSwitch.of_not_switch {event : MachineEvent}
    (hother : ∀ call old p, m.stack.scheduling = some call → call.stage ≠ .switch old p) :
    AcknowledgedSwitch m event :=
  fun call old p _ _ _ hcall hstage ↦ absurd hstage (hother call old p hcall)

theorem AcknowledgedSwitch.of_event {event : MachineEvent} (hother : event ≠ .statement) :
    AcknowledgedSwitch m event :=
  fun _ _ _ _ hevent ↦ absurd hevent hother

/-- A statement of `schedule`. -/
theorem Served.scheduleStep_iff (hserved : Served m) {put : Option ScheduleCall → Stack}
    (hcall : m.stack.scheduling = some call)
    (hput : ∀ later, (put later).serving = m.stack.serving)
    (hstep : m.scheduleStep call put = some after) :
    Served after ↔ AcknowledgedSwitch m .statement := by
  have hstays : ∀ k later, Served ({ m with kernel := k }.setStack (put later)) :=
    fun k later ↦ hserved.setStack (hput later)
  have hgoes : ∀ outcome, scheduleStatement m.kernel call.stage = (after.kernel, outcome) →
      (∀ old p, outcome ≠ .switched old p) → AcknowledgedSwitch m .statement := by
    intro outcome hstatement hother
    refine .of_not_switch fun latest old p hlatest hstage ↦ ?_
    obtain rfl := Option.some.inj (hcall.symm.trans hlatest)
    rw [hstage] at hstatement
    exact hother old p (Prod.mk.inj hstatement).2.symm
  rcases Machine.scheduleStep_cases hstep with ⟨stage, hstatement, hafter⟩ |
    ⟨hstatement, hafter⟩ | ⟨old, p, hstage, hswitch⟩
  · refine iff_of_true ?_ (hgoes _ hstatement nofun)
    rw [hafter]
    exact hstays _ _
  · refine iff_of_true ?_ (hgoes _ hstatement nofun)
    rw [hafter]
    exact hstays _ _
  · rw [hserved.switch_iff (hput _) hswitch]
    constructor
    · rintro hkept latest old' p' context - hservice hlatest hstage' hne hcontext
      obtain rfl := Option.some.inj (hcall.symm.trans hlatest)
      rw [hstage] at hstage'
      cases hstage'
      exact hkept hservice hne context hcontext
    · intro hkept hservice hne context hcontext
      exact hkept call old p context rfl hservice hcall hstage hne hcontext

/-- A statement of the timer interrupt on top of the running stack. -/
theorem Served.handlerStep_iff (hserved : Served m) {handler : Handler} {handlers : List Handler}
    (hhandlers : m.stack.handlers = handler :: handlers)
    (hstep : m.handlerStep handler handlers = some after) :
    Served after ↔ AcknowledgedSwitch m .statement := by
  have hserving : m.stack.serving =
      (handler.stage.beforeEoi || handlers.any fun handler ↦ handler.stage.beforeEoi) := by
    rw [Stack.serving, hhandlers, List.any_cons]
  have hput : ∀ stage : HandlerStage, ({ m.stack with
      handlers := { handler with stage := stage } :: handlers } : Stack).serving =
        (stage.beforeEoi || handlers.any fun handler ↦ handler.stage.beforeEoi) := fun _ ↦ rfl
  have hscheduling : m.stack.scheduling = handler.stage.scheduleCall := by
    rw [Stack.scheduling, hhandlers]
  have hquiet : handler.stage.scheduleCall = none → AcknowledgedSwitch m .statement := by
    intro hnone
    refine .of_not_switch fun call old p hcall ↦ ?_
    rw [hscheduling, hnone] at hcall
    cases hcall
  rw [Machine.handlerStep] at hstep
  cases hstage : handler.stage with
  | clock =>
    rw [hstage] at hstep hserving hquiet
    obtain rfl := Option.some.inj hstep
    exact iff_of_true (hserved.setStack ((hput .countdown).trans hserving.symm)) (hquiet rfl)
  | countdown =>
    rw [hstage] at hstep hserving hquiet
    obtain rfl := Option.some.inj hstep
    exact iff_of_true (hserved.setStack ((hput .test).trans hserving.symm)) (hquiet rfl)
  | test =>
    rw [hstage] at hstep hserving hquiet
    obtain rfl := Option.some.inj hstep
    refine iff_of_true (hserved.moved rfl ?_) (hquiet rfl)
    rw [Machine.setStack_stack, hserving]
    split_ifs <;> rfl
  | schedule call =>
    rw [hstage] at hstep hserving hscheduling
    refine hserved.scheduleStep_iff hscheduling (fun later ↦ ?_) hstep
    rw [hserving]
    cases later <;> rfl
  | eoi =>
    rw [hstage] at hstep hserving hquiet
    obtain rfl := Option.some.inj hstep
    exact iff_of_true (fun hnone ↦ by cases hnone) (hquiet rfl)
  | iret =>
    rw [hstage] at hstep hserving hquiet
    obtain rfl := Option.some.inj hstep
    exact iff_of_true (hserved.setStack hserving.symm) (hquiet rfl)

/-- A statement of a call that the running process made. -/
theorem Served.callStep_iff (hserved : Served m) {stage : CallStage}
    (hhandlers : m.stack.handlers = []) (hcall : m.stack.call = some stage)
    (hstep : m.callStep stage = some after) :
    Served after ↔ AcknowledgedSwitch m .statement := by
  have hscheduling : m.stack.scheduling = stage.scheduleCall := by
    rw [Stack.scheduling, hhandlers, hcall]
    rfl
  have hquiet : stage.scheduleCall = none → AcknowledgedSwitch m .statement := by
    intro hnone
    refine .of_not_switch fun call old p hcall ↦ ?_
    rw [hscheduling, hnone] at hcall
    cases hcall
  cases stage with
  | schedule call =>
    have hschedule : m.scheduleStep call (fun later ↦
        { m.stack with call := later.map CallStage.schedule }) = some after := hstep
    refine hserved.scheduleStep_iff hscheduling (fun later ↦ ?_) hschedule
    rfl
  | _ =>
    obtain rfl := Option.some.inj hstep
    exact iff_of_true (hserved.setStack rfl) (hquiet rfl)

/-- The next statement. -/
theorem Served.statement_iff (hserved : Served m) (hstep : m.statement = some after) :
    Served after ↔ AcknowledgedSwitch m .statement := by
  rcases Machine.statement_cases hstep with ⟨handler, handlers, hhandlers, hhandler⟩ |
    ⟨hhandlers, ⟨call, hcall, hmade⟩ | ⟨hcall, rfl⟩⟩
  · exact hserved.handlerStep_iff hhandlers hhandler
  · exact hserved.callStep_iff hhandlers hcall hmade
  · refine iff_of_true ?_ (.of_not_switch fun call old p hsome ↦ ?_)
    · rcases m.baseStep_cases with heq | heq
      · rw [heq]
        exact hserved
      · rw [heq]
        exact hserved.setStack rfl
    · rw [Stack.scheduling, hhandlers, hcall] at hsome
      cases hsome

variable {entryPoints : EntryPoints} {gate : Machine → Bool} {event : MachineEvent}

/-- Every step. -/
theorem Served.step_iff (hserved : Served m) (hused : OwnersUsed m)
    (hstep : (timerSystem entryPoints gate).step m event after) :
    Served after ↔ AcknowledgedSwitch m event := by
  rcases timerStep_cases hstep with ⟨rfl, -, rfl⟩ | ⟨rfl, hstatement⟩ | ⟨made, rfl, -, hmade⟩
  · refine iff_of_true (fun _ ↦ ?_) (.of_event nofun)
    rw [Machine.interrupt, Machine.setStack_stack]
    rfl
  · exact hserved.statement_iff hstatement
  · refine iff_of_true ?_ (.of_event nofun)
    rcases CodeCall.perform_cases hmade with ⟨stage, -, rfl⟩ | ⟨p, rfl⟩ |
      ⟨base, result, hcreates, rfl⟩ | ⟨flag, base, rfl⟩
    · exact hserved.setStack rfl
    · exact hserved
    · rcases hcreates with rfl | ⟨p, k, rfl, hadded⟩
      · exact hserved
      · exact hserved.moved rfl (congrArg Stack.serving (hused.created base hadded).2)
    · exact hserved.setStack rfl

/-! ### Runs -/

/-- The run lemma. -/
theorem Served.of_run {events : List MachineEvent}
    (hrun : ((timerSystem entryPoints gate).restrict AcknowledgedSwitch).Run events m) :
    Served m ∧ OwnersUsed m := by
  refine hrun.invariant (motive := fun m ↦ Served m ∧ OwnersUsed m) (fun state hstart ↦ ?_) ?_
  · have horigin : (timerSystem entryPoints gate).start state := hstart
    refine ⟨?_, OwnersUsed.start horigin⟩
    obtain ⟨procIdle, idleStack, shell, idle, k, -, rfl⟩ := horigin
    exact nofun
  · rintro state event next ⟨hserved, hused⟩ ⟨hswitch, hstep⟩
    exact ⟨(hserved.step_iff hused hstep).mpr hswitch, hused.step hstep⟩

/-- In every state of a run whose switches meet the condition, whenever the timer is let in, no code
outside `interrupt_dispatch` runs while the timer interrupt is in service, nor any but a timer
interrupt before its acknowledgement; and the next step keeps that exactly when it meets the
condition. -/
theorem acknowledged_run {events : List MachineEvent}
    (hrun : ((timerSystem entryPoints gate).restrict AcknowledgedSwitch).Run events m) :
    (m.stack.outsideDispatch = true → m.inService = false) ∧ Served m ∧
      ∀ event after, (timerSystem entryPoints gate).step m event after →
        (Served after ↔ AcknowledgedSwitch m event) := by
  obtain ⟨hserved, hused⟩ := Served.of_run hrun
  refine ⟨fun houtside ↦ ?_, hserved, fun event after hstep ↦ hserved.step_iff hused hstep⟩
  by_contra hservice
  have hserving := hserved (Bool.not_eq_false _ ▸ hservice)
  rw [Stack.serving_of_outside houtside] at hserving
  cases hserving

/-- The condition holds of a run in which idle yields to the shell and the timer interrupts on the
way. -/
def acknowledgedState : Option Machine :=
  interruptedYield.foldlM (fun m event ↦
    if AcknowledgedSwitch m event then event.perform ⟨1#64, 2#64⟩ hardwareGate m else none)
    (.boot 0 twoReady)

theorem acknowledgedState_isSome : acknowledgedState.isSome = true := by
  decide +kernel

theorem acknowledged_run_yield : ∃ m : Machine, m.running = 1 ∧ m.kernel.ticks = 1#64 ∧
    m.stack.outsideDispatch = true ∧ m.inService = false := by
  have hrun := TransitionSystem.Run.restrict_of_get (start_twoReady hardwareGate)
    acknowledgedState_isSome
  have houtside :
      (acknowledgedState.get acknowledgedState_isSome).stack.outsideDispatch = true := by
    decide +kernel
  exact ⟨acknowledgedState.get acknowledgedState_isSome, by decide +kernel, by decide +kernel,
    houtside, (acknowledged_run hrun).1 houtside⟩

def firstState : Option Machine :=
  firstDispatch.foldlM (MachineEvent.perform ⟨1#64, 2#64⟩ hardwareGate) (.boot 0 twoReady)

theorem firstState_isSome : firstState.isSome = true := by
  decide +kernel

/-- The shell starts with the timer interrupt in service. -/
theorem first_dispatch_in_service : ¬ ∀ entryPoints gate events m,
    (timerSystem entryPoints gate).Run events m → m.stack.outsideDispatch = true →
      m.inService = false := by
  intro hall
  have hrun := TransitionSystem.Run.of_get (start_twoReady hardwareGate) firstState_isSome
  have hclear : (firstState.get firstState_isSome).inService = false :=
    hall _ _ _ _ hrun (by decide +kernel)
  have hset : (firstState.get firstState_isSome).inService = true := by decide +kernel
  rw [hset] at hclear
  cases hclear

end Colix.Proc
