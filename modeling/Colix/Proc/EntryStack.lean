import Colix.Proc.StackOwners

/-!
# The stack that user code is interrupted onto

`schedule` stores `kernel_rsp` of the process it has made current into `tss.rsp[0]` before it
switches to it, and the processor takes that stack when an interrupt or a system call comes out of
ring 3. Between the store and the switch the old process still runs, with the stack of the new one
in the TSS.

`entry_stack_run` is that this is never seen from ring 3: whenever a user process's own code runs,
the TSS names that process's kernel stack, whatever the timer does between the statements. It rests
on `OwnerInvariant`, so it holds as long as no `sched_tick` schedules in the window of another
`schedule`.
-/

set_option autoImplicit false
set_option relaxedAutoImplicit false

namespace Colix.Proc

open Foundation

/-! ### The property -/

/-- The process whose stack this call of `schedule` has put into the TSS, not yet switched to. -/
def ScheduleStage.entered : ScheduleStage → Option ProcIndex
  | .setStarted _ p => some p
  | .switch _ p => some p
  | _ => none

/-- The process that the TSS is to serve, on the stack of `t` with these calls of `schedule`. -/
def servedProcess (t : ProcIndex) (calls : List ScheduleCall) : ProcIndex :=
  (calls.head?.bind fun call ↦ call.stage.entered).getD t

/-- A user process that is served is served with its own stack. -/
def EntryStack (k : Kernel) (p : ProcIndex) : Prop :=
  (k.procTable p).isUser = true → k.tssRsp0 = (k.procTable p).kernelRsp

/-- The entries in use keep their kernel stack and their mode, and the TSS its stack. -/
structure EntryStacksKept (k next : Kernel) : Prop where
  tssRsp0_eq : next.tssRsp0 = k.tssRsp0
  kernelRsp_eq : ∀ i, InUse k i → (next.procTable i).kernelRsp = (k.procTable i).kernelRsp
  isUser_eq : ∀ i, InUse k i → (next.procTable i).isUser = (k.procTable i).isUser

variable {k next : Kernel} {m after : Machine} {p t : ProcIndex} {call : ScheduleCall}
  {calls rest : List ScheduleCall}

theorem EntryStacksKept.refl (k : Kernel) : EntryStacksKept k k :=
  ⟨rfl, fun _ _ ↦ rfl, fun _ _ ↦ rfl⟩

theorem EntryStack.kept (hentry : EntryStack k p) (hkept : EntryStacksKept k next)
    (hused : InUse k p) : EntryStack next p := by
  rw [EntryStack, hkept.isUser_eq p hused, hkept.tssRsp0_eq, hkept.kernelRsp_eq p hused]
  exact hentry

/-! ### Writes to entries -/

theorem entryStacksKept_modify (p : ProcIndex) (f : Process → Process)
    (hrsp : ∀ process, (f process).kernelRsp = process.kernelRsp)
    (huser : ∀ process, (f process).isUser = process.isUser) : EntryStacksKept k (k.modify p f) :=
  ⟨rfl, fun _ _ ↦ Kernel.modify_field _ _ _ _ Process.kernelRsp hrsp,
    fun _ _ ↦ Kernel.modify_field _ _ _ _ Process.isUser huser⟩

theorem entryStacksKept_modifyCurrent (f : Process → Process)
    (hrsp : ∀ process, (f process).kernelRsp = process.kernelRsp)
    (huser : ∀ process, (f process).isUser = process.isUser) :
    EntryStacksKept k (modifyCurrent k f) := by
  rw [modifyCurrent]
  split
  · exact .refl k
  · exact entryStacksKept_modify _ f hrsp huser

/-- A write to an entry that is not in use. -/
theorem entryStacksKept_modify_unused (hunused : (k.procTable p).state = .unused)
    (f : Process → Process) (nextPid : Pid) :
    EntryStacksKept k { k.modify p f with nextPid := nextPid } := by
  have hother : ∀ i, InUse k i → (k.modify p f).procTable i = k.procTable i := fun i hi ↦
    Kernel.modify_procTable_of_ne _ _ fun heq ↦ hi (heq ▸ hunused)
  exact ⟨rfl, fun i hi ↦ congrArg Process.kernelRsp (hother i hi),
    fun i hi ↦ congrArg Process.isUser (hother i hi)⟩

theorem entryStacksKept_countdownAll (k : Kernel) : EntryStacksKept k (countdownAll k) := by
  have hfields : ∀ process : Process, (countdown process).kernelRsp = process.kernelRsp ∧
      (countdown process).isUser = process.isUser := by
    intro process
    rw [countdown]
    dsimp only
    split_ifs <;> exact ⟨rfl, rfl⟩
  exact ⟨rfl, fun i _ ↦ (hfields _).1, fun i _ ↦ (hfields _).2⟩

theorem entryStacksKept_procWakeup (p : ProcIndex) : EntryStacksKept k (procWakeup k p) := by
  rw [procWakeup]
  split_ifs
  · exact entryStacksKept_modify p _ (fun _ ↦ rfl) fun _ ↦ rfl
  · exact .refl k

theorem entryStacksKept_procCreate (entryPoints : EntryPoints) (kstack : Word) (name : List Byte)
    (entry : Word) : EntryStacksKept k (procCreate entryPoints kstack name entry k).2 := by
  rcases procCreate_cases entryPoints kstack name entry k with hsame | ⟨p, hunused, -, hcreate⟩
  · rw [hsame]
    exact .refl k
  · rw [hcreate]
    exact entryStacksKept_modify_unused hunused _ _

theorem entryStacksKept_procCreateElf (entryPoints : EntryPoints) (pages : ElfPages)
    (entry : Word) : EntryStacksKept k (procCreateElf entryPoints pages entry k).2 := by
  rcases procCreateElf_cases entryPoints pages entry k with hsame | ⟨p, hunused, hcreate⟩
  · rw [hsame]
    exact .refl k
  · rw [hcreate]
    exact entryStacksKept_modify_unused hunused _ _

/-- A statement of `schedule` that goes on stores the stack of the process it has chosen, or leaves
the stacks alone and the TSS with whom it serves. -/
theorem scheduleStatement_entered {stage later : ScheduleStage}
    (hstatement : scheduleStatement k stage = (next, .goto later)) :
    (∃ p, later.entered = some p ∧ EntryStack next p) ∨
      EntryStacksKept k next ∧ later.entered = stage.entered := by
  cases stage with
  | start =>
    rw [scheduleStatement] at hstatement
    split_ifs at hstatement <;> cases hstatement
    exact Or.inr ⟨.refl k, rfl⟩
  | requeueTest =>
    rw [scheduleStatement] at hstatement
    split_ifs at hstatement <;> cases hstatement <;> exact Or.inr ⟨.refl k, rfl⟩
  | requeue =>
    cases hstatement
    exact Or.inr ⟨entryStacksKept_modifyCurrent _ (fun _ ↦ rfl) fun _ ↦ rfl, rfl⟩
  | takeOld =>
    rw [scheduleStatement] at hstatement
    split at hstatement <;> cases hstatement
    exact Or.inr ⟨.refl k, rfl⟩
  | scan old n =>
    dsimp only [scheduleStatement] at hstatement
    split_ifs at hstatement <;> cases hstatement <;> exact Or.inr ⟨.refl k, rfl⟩
  | setCurrent old p =>
    cases hstatement
    exact Or.inr ⟨⟨rfl, fun _ _ ↦ rfl, fun _ _ ↦ rfl⟩, rfl⟩
  | setRunning old p =>
    cases hstatement
    exact Or.inr ⟨entryStacksKept_modify p _ (fun _ ↦ rfl) fun _ ↦ rfl, rfl⟩
  | setRsp0 old p =>
    cases hstatement
    exact Or.inl ⟨p, rfl, fun _ ↦ rfl⟩
  | setStarted old p =>
    dsimp only [scheduleStatement] at hstatement
    split_ifs at hstatement <;> cases hstatement
    · exact Or.inr ⟨entryStacksKept_modify p _ (fun _ ↦ rfl) fun _ ↦ rfl, rfl⟩
    · exact Or.inr ⟨.refl k, rfl⟩
  | switch | resumed | noneReady => cases hstatement

/-- A statement that returns leaves the stacks alone, and the TSS serves who runs. -/
theorem entryStacksKept_returned {stage : ScheduleStage}
    (hstatement : scheduleStatement k stage = (next, .returned)) :
    EntryStacksKept k next ∧ stage.entered = none := by
  cases stage with
  | start =>
    rw [scheduleStatement] at hstatement
    split_ifs at hstatement <;> cases hstatement
    exact ⟨.refl k, rfl⟩
  | takeOld =>
    rw [scheduleStatement] at hstatement
    split at hstatement <;> cases hstatement
    exact ⟨.refl k, rfl⟩
  | scan old n =>
    dsimp only [scheduleStatement] at hstatement
    split_ifs at hstatement <;> cases hstatement
  | resumed =>
    cases hstatement
    exact ⟨.refl k, rfl⟩
  | noneReady old =>
    dsimp only [scheduleStatement] at hstatement
    split_ifs at hstatement <;> cases hstatement
    · exact ⟨entryStacksKept_modify old _ (fun _ ↦ rfl) fun _ ↦ rfl, rfl⟩
    · exact ⟨.refl k, rfl⟩
  | _ => cases hstatement

/-! ### What a step does to the calls of `schedule` -/

/-- All that a step can do to the calls of `schedule` on the running stack, to the stacks of the
processes and to the TSS. -/
inductive CallsStep (m after : Machine) : Prop
  | quiet (hrunning : after.running = m.running) (hcalls : after.stack.calls = m.stack.calls)
      (hkept : EntryStacksKept m.kernel after.kernel)
  | called (flag : Bool) (hrunning : after.running = m.running)
      (hcalls : after.stack.calls = ⟨flag, .start⟩ :: m.stack.calls)
      (hkept : EntryStacksKept m.kernel after.kernel)
      (hpending : ∀ call ∈ m.stack.calls, ∀ p ∈ call.stage.pending, p = m.running)
  | goto (call : ScheduleCall) (rest : List ScheduleCall) (later : ScheduleStage)
      (hrunning : after.running = m.running) (hbefore : m.stack.calls = call :: rest)
      (hcalls : after.stack.calls = ⟨call.flag, later⟩ :: rest)
      (hstatement : scheduleStatement m.kernel call.stage = (after.kernel, .goto later))
  | returned (call : ScheduleCall) (rest : List ScheduleCall)
      (hrunning : after.running = m.running) (hbefore : m.stack.calls = call :: rest)
      (hcalls : after.stack.calls = rest)
      (hstatement : scheduleStatement m.kernel call.stage = (after.kernel, .returned))
  | switched (call : ScheduleCall) (rest : List ScheduleCall) (old p : ProcIndex)
      (hbefore : m.stack.calls = call :: rest) (hstage : call.stage = .switch old p)
      (hkernel : after.kernel = m.kernel)
      (hrunning : p = old ∧ after.running = m.running ∨
        p ≠ old ∧ ∃ context, m.saved p = some context ∧ after.running = context.owner)

section CallsStep

/-- A step on the running stack that makes no call of `schedule`. -/
theorem CallsStep.of_setStack {stack : Stack} {flag service : Bool}
    (hcalls : stack.calls = m.stack.calls) (hkept : EntryStacksKept m.kernel k) :
    CallsStep m ({ m with kernel := k, interruptFlag := flag, inService := service }.setStack
      stack) := by
  refine .quiet rfl ?_ hkept
  rw [Machine.setStack_stack, hcalls]

/-- A statement of the latest call of `schedule`. -/
theorem callsStep_schedule {put : Option ScheduleCall → Stack}
    (hcalls : m.stack.calls = call :: rest)
    (hput : ∀ later, (put later).calls = later.toList ++ rest)
    (hstep : m.scheduleStep call put = some after) : CallsStep m after := by
  rcases Machine.scheduleStep_cases hstep with ⟨later, hstatement, hafter⟩ |
    ⟨hstatement, hafter⟩ | ⟨old, p, hstage, hswitch⟩
  · refine .goto call rest later (by rw [hafter]; rfl) hcalls ?_ hstatement
    rw [hafter, Machine.setStack_stack, hput]
    rfl
  · refine .returned call rest (by rw [hafter]; rfl) hcalls ?_ hstatement
    rw [hafter, Machine.setStack_stack, hput]
    rfl
  · obtain ⟨context, hcontext, rfl⟩ := Machine.switch_cases hswitch
    refine .switched call rest old p hcalls hstage rfl ?_
    rcases hcontext with ⟨heq, rfl⟩ | ⟨hne, hsaved⟩
    · exact Or.inl ⟨heq, rfl⟩
    · exact Or.inr ⟨hne, context, hsaved, rfl⟩

/-- A statement of a timer interrupt. -/
theorem callsStep_handler {handler : Handler} {handlers : List Handler}
    (hhandlers : m.stack.handlers = handler :: handlers)
    (hnested : NoNestedSchedule m .statement)
    (hstep : m.handlerStep handler handlers = some after) : CallsStep m after := by
  have hcalls : m.stack.calls = handler.stage.scheduleCall.toList ++
      (Stack.mk m.stack.base m.stack.call handlers).calls := by
    rw [← Stack.calls_cons, ← hhandlers]
  have hput : ∀ stage : HandlerStage, ({ m.stack with
      handlers := { handler with stage := stage } :: handlers } : Stack).calls =
        stage.scheduleCall.toList ++ (Stack.mk m.stack.base m.stack.call handlers).calls :=
    fun stage ↦ Stack.calls_cons ..
  rw [Machine.handlerStep] at hstep
  cases hstage : handler.stage with
  | clock =>
    rw [hstage] at hstep hcalls
    obtain rfl := Option.some.inj hstep
    exact .of_setStack ((hput .countdown).trans hcalls.symm) ⟨rfl, fun _ _ ↦ rfl, fun _ _ ↦ rfl⟩
  | countdown =>
    rw [hstage] at hstep hcalls
    obtain rfl := Option.some.inj hstep
    exact .of_setStack ((hput .test).trans hcalls.symm) (entryStacksKept_countdownAll m.kernel)
  | test =>
    rw [hstage] at hstep hcalls
    obtain rfl := Option.some.inj hstep
    split_ifs with hdue
    · refine .called m.interruptFlag rfl ?_ (.refl _)
        (hnested handler handlers rfl hhandlers hstage hdue)
      rw [Machine.setStack_stack, hput, hcalls]
      rfl
    · exact .of_setStack ((hput .eoi).trans hcalls.symm) (.refl _)
  | schedule call =>
    rw [hstage] at hstep hcalls
    refine callsStep_schedule hcalls (fun later ↦ ?_) hstep
    rw [hput]
    cases later <;> rfl
  | eoi =>
    rw [hstage] at hstep hcalls
    obtain rfl := Option.some.inj hstep
    exact .of_setStack ((hput .iret).trans hcalls.symm) (.refl _)
  | iret =>
    rw [hstage] at hstep hcalls
    obtain rfl := Option.some.inj hstep
    exact .of_setStack hcalls.symm (.refl _)

/-- A statement of a call. -/
theorem callsStep_call {stage : CallStage} (hhandlers : m.stack.handlers = [])
    (hcall : m.stack.call = some stage) (hstep : m.callStep stage = some after) :
    CallsStep m after := by
  have hcalls : m.stack.calls = stage.scheduleCall.toList := by
    rw [Stack.calls_of_nil hhandlers, hcall]
    rfl
  have hput : ∀ later : Option CallStage, ({ m.stack with call := later } : Stack).calls =
      (later.bind CallStage.scheduleCall).toList := fun later ↦ Stack.calls_of_nil hhandlers
  -- a write to the current process, before the call of `schedule` or with it
  have hwrite : ∀ f later, (∀ process, (f process).kernelRsp = process.kernelRsp) →
      (∀ process, (f process).isUser = process.isUser) → stage.scheduleCall = none →
      (later.scheduleCall = none ∨ later.scheduleCall = some ⟨m.interruptFlag, .start⟩) →
        CallsStep m ({ m with kernel := modifyCurrent m.kernel f }.setStack
          { m.stack with call := some later }) := by
    intro f later hrsp huser hnone hlater
    have hempty : m.stack.calls = [] := by
      rw [hcalls, hnone]
      rfl
    have hkept := entryStacksKept_modifyCurrent (k := m.kernel) f hrsp huser
    rcases hlater with hlater | hlater
    · refine .of_setStack ?_ hkept
      rw [hput, Option.bind_some, hlater, hempty]
      rfl
    · refine .called m.interruptFlag rfl ?_ hkept fun call hmem ↦ ?_
      · rw [Machine.setStack_stack, hput, Option.bind_some, hlater, hempty]
        rfl
      · rw [hempty] at hmem
        cases hmem
  cases stage with
  | sleepStore ms =>
    obtain rfl := Option.some.inj hstep
    exact hwrite _ _ (fun _ ↦ rfl) (fun _ ↦ rfl) rfl (Or.inl rfl)
  | sleepAtLeastOne =>
    obtain rfl := Option.some.inj hstep
    refine hwrite _ _ (fun process ↦ ?_) (fun process ↦ ?_) rfl (Or.inl rfl)
    · split_ifs <;> rfl
    · split_ifs <;> rfl
  | sleepMark =>
    obtain rfl := Option.some.inj hstep
    exact hwrite _ _ (fun _ ↦ rfl) (fun _ ↦ rfl) rfl (Or.inr rfl)
  | exitState code =>
    obtain rfl := Option.some.inj hstep
    exact hwrite _ _ (fun _ ↦ rfl) (fun _ ↦ rfl) rfl (Or.inl rfl)
  | exitCode code =>
    obtain rfl := Option.some.inj hstep
    exact hwrite _ _ (fun _ ↦ rfl) (fun _ ↦ rfl) rfl (Or.inr rfl)
  | schedule call =>
    have hschedule : m.scheduleStep call (fun later ↦
        { m.stack with call := later.map CallStage.schedule }) = some after := hstep
    refine callsStep_schedule hcalls (fun later ↦ ?_) hschedule
    rw [hput]
    cases later <;> rfl

variable {entryPoints : EntryPoints} {gate : Machine → Bool} {event : MachineEvent}

/-- A process created. -/
theorem callsStep_created {base : Base} {result : Option ProcIndex × Kernel}
    (hcreates : Creates m.kernel result) (hused : InUse m.kernel m.running)
    (hkept : EntryStacksKept m.kernel result.2) : CallsStep m (m.created base result) := by
  rcases hcreates with rfl | ⟨p, k, rfl, hadded⟩
  · exact .quiet rfl rfl hkept
  · have hne : m.running ≠ p := fun heq ↦ hused (heq ▸ hadded.unused_before)
    have hstack : (m.created base (some p, k)).stack = m.stack := Function.update_of_ne hne ..
    exact .quiet rfl (congrArg Stack.calls hstack) hkept

/-- A call from the process's own code. -/
theorem callsStep_own {made : CodeCall} (hused : InUse m.kernel m.running)
    (hcode : m.stack.atCode = true)
    (hstep : made.perform entryPoints m m.stack.base = some after) : CallsStep m after := by
  obtain ⟨hcall, hhandlers⟩ := Stack.atCode_cases hcode
  have hempty : m.stack.calls = [] := by
    rw [Stack.calls_of_nil hhandlers, hcall]
    rfl
  have hput : ∀ stage : CallStage, ({ m.stack with call := some stage } : Stack).calls =
      stage.scheduleCall.toList := fun stage ↦ Stack.calls_of_nil hhandlers
  cases made with
  | yield =>
    obtain rfl := Option.some.inj hstep
    refine .called m.interruptFlag rfl ?_ (.refl _) fun call hmem ↦ ?_
    · rw [Machine.enter, Machine.setStack_stack, hput, hempty]
      rfl
    · rw [hempty] at hmem
      cases hmem
  | sleep | exit =>
    obtain rfl := Option.some.inj hstep
    exact .of_setStack ((hput _).trans hempty.symm) (.refl _)
  | wakeup p =>
    obtain rfl := Option.some.inj hstep
    exact .quiet rfl rfl (entryStacksKept_procWakeup p)
  | create kstack name entry =>
    obtain rfl := Option.some.inj hstep
    exact callsStep_created (procCreate_creates entryPoints kstack name entry _) hused
      (entryStacksKept_procCreate entryPoints kstack name entry)
  | createElf pages entry =>
    obtain rfl := Option.some.inj hstep
    exact callsStep_created (procCreateElf_creates entryPoints pages entry _) hused
      (entryStacksKept_procCreateElf entryPoints pages entry)
  | syscall | sysret =>
    rcases hbase : m.stack.base with _ | _ | _ | flag <;> rw [hbase] at hstep <;> cases hstep
    exact .of_setStack rfl (.refl _)

/-- Every step. -/
theorem callsStep_of_step (hused : InUse m.kernel m.running) (hnested : NoNestedSchedule m event)
    (hstep : (timerSystem entryPoints gate).step m event after) : CallsStep m after := by
  rcases timerStep_cases hstep with ⟨-, -, rfl⟩ | ⟨rfl, hstatement⟩ | ⟨made, -, hcode, hmade⟩
  · exact .of_setStack (Stack.calls_cons ..) (.refl _)
  · rcases Machine.statement_cases hstatement with ⟨handler, handlers, hhandlers, hhandler⟩ |
      ⟨hhandlers, ⟨call, hcall, hmade⟩ | ⟨-, rfl⟩⟩
    · exact callsStep_handler hhandlers hnested hhandler
    · exact callsStep_call hhandlers hcall hmade
    · rcases m.baseStep_cases with heq | heq
      · rw [heq]
        exact .quiet rfl rfl (.refl _)
      · rw [heq]
        exact .of_setStack rfl (.refl _)
  · exact callsStep_own hused hcode hmade

end CallsStep

/-! ### Whom the TSS serves -/

/-- A call that has stored a stack has made its process current. -/
theorem ScheduleStage.pending_of_entered {stage : ScheduleStage}
    (hentered : stage.entered = some p) : stage.pending = some p := by
  cases stage <;> first | exact hentered | cases hentered

/-- Calls that have made nobody else current leave the TSS to who runs. -/
theorem servedProcess_eq (hpending : ∀ call ∈ calls, ∀ p ∈ call.stage.pending, p = t) :
    servedProcess t calls = t := by
  cases calls with
  | nil => rfl
  | cons call rest =>
    cases hentered : call.stage.entered with
    | none => simp [servedProcess, hentered]
    | some p =>
      have hp := hpending call List.mem_cons_self p (ScheduleStage.pending_of_entered hentered)
      simp [servedProcess, hentered, hp]

theorem servedProcess_used (hcalls : RunningCalls k t calls) (hused : InUse k t) :
    InUse k (servedProcess t calls) := by
  cases calls with
  | nil => exact hused
  | cons call rest =>
    cases hentered : call.stage.entered with
    | none => simpa [servedProcess, hentered] using hused
    | some p =>
      have hchosen := ScheduleStage.chosen_eq (ScheduleStage.pending_of_entered hentered)
      simpa [servedProcess, hentered] using hcalls.chosen_used p hchosen

/-- The calls below the latest have made nobody else current. -/
theorem RunningCalls.rest_pending (hcalls : RunningCalls k t (call :: rest)) :
    ∀ call ∈ rest, ∀ p ∈ call.stage.pending, p = t := by
  cases hcalls with
  | steady hcurrent hsteady =>
    exact fun call hmem ↦ (hsteady call (List.mem_cons_of_mem _ hmem)).pending_eq
  | leaving leaver others q hcons hleaving hsteady =>
    obtain ⟨rfl, rfl⟩ := List.cons_eq_cons.mp hcons
    exact fun call hmem ↦ (hsteady call hmem).pending_eq

/-- When the process that runs is current, its calls have made nobody else current. -/
theorem RunningCalls.all_pending (hcalls : RunningCalls k t calls)
    (hcurrent : k.currentProc = some t) : ∀ call ∈ calls, ∀ p ∈ call.stage.pending, p = t := by
  cases hcalls with
  | steady _ hsteady => exact fun call hmem ↦ (hsteady call hmem).pending_eq
  | leaving leaver others q hcons hleaving hsteady =>
    have heq := hleaving.currentProc_eq
    rw [hcurrent] at heq
    exact absurd (Option.some.inj heq).symm hleaving.ne

/-! ### Runs -/

section Runs

variable {entryPoints : EntryPoints} {gate : Machine → Bool} {event : MachineEvent}

/-- The step lemma. -/
theorem entryStack_step (howner : OwnerInvariant m) (hafter : OwnerInvariant after)
    (hstep : CallsStep m after)
    (hentry : EntryStack m.kernel (servedProcess m.running m.stack.calls)) :
    EntryStack after.kernel (servedProcess after.running after.stack.calls) := by
  have hserved := servedProcess_used howner.calls howner.used
  cases hstep with
  | quiet hrunning hcalls hkept =>
    rw [hrunning, hcalls]
    exact hentry.kept hkept hserved
  | called flag hrunning hcalls hkept hpending =>
    rw [servedProcess_eq hpending] at hentry
    have hnow : servedProcess after.running after.stack.calls = m.running := by
      rw [hrunning, hcalls]
      rfl
    rw [hnow]
    exact hentry.kept hkept howner.used
  | goto call rest later hrunning hbefore hcalls hstatement =>
    rw [hrunning, hcalls]
    rcases scheduleStatement_entered hstatement with ⟨p, hentered, hstored⟩ | ⟨hkept, hsame⟩
    · have hnow : servedProcess m.running (⟨call.flag, later⟩ :: rest) = p := by
        simp [servedProcess, hentered]
      rw [hnow]
      exact hstored
    · have hnow : servedProcess m.running (⟨call.flag, later⟩ :: rest) =
          servedProcess m.running m.stack.calls := by
        rw [hbefore]
        simp [servedProcess, hsame]
      rw [hnow]
      exact hentry.kept hkept hserved
  | returned call rest hrunning hbefore hcalls hstatement =>
    obtain ⟨hkept, hnone⟩ := entryStacksKept_returned hstatement
    have hbelow := howner.calls
    rw [hbefore] at hbelow hentry
    have hwas : servedProcess m.running (call :: rest) = m.running := by
      simp [servedProcess, hnone]
    rw [hwas] at hentry
    rw [hrunning, hcalls, servedProcess_eq hbelow.rest_pending]
    exact hentry.kept hkept howner.used
  | switched call rest old p hbefore hstage hkernel hrunning =>
    have hcalls := howner.calls
    rw [hbefore] at hcalls hentry
    obtain ⟨hold, -, hcurrent, -⟩ := hcalls.switched hstage
    have hwas : servedProcess m.running (call :: rest) = p := by
      simp [servedProcess, hstage, ScheduleStage.entered]
    have hrun : after.running = p := by
      rcases hrunning with ⟨heq, hsame⟩ | ⟨-, context, hsaved, howned⟩
      · rw [hsame, heq, hold]
      · rw [howned, howner.owner p context hsaved]
    have hmade : after.kernel.currentProc = some after.running := by
      rw [hkernel, hrun, hcurrent]
    rw [servedProcess_eq (hafter.calls.all_pending hmade), hrun, hkernel]
    rw [hwas] at hentry
    exact hentry

/-- `proc_create` leaves an entry of `.bss` a kernel process. -/
theorem isUser_procCreate {kstack entry : Word} {name : List Byte} {i : ProcIndex}
    (hcreate : procCreate entryPoints kstack name entry (procInit Kernel.bss) = (some i, k)) :
    (k.procTable i).isUser = false := by
  rcases procCreate_cases entryPoints kstack name entry (procInit Kernel.bss) with
    hsame | ⟨p, -, -, hfilled⟩
  · rw [hsame] at hcreate
    cases hcreate
  · rw [hfilled] at hcreate
    obtain ⟨hindex, rfl⟩ := Prod.mk.inj hcreate
    obtain rfl := Option.some.inj hindex
    change (((procInit Kernel.bss).modify p _).procTable p).isUser = false
    rw [Kernel.modify_procTable_self]
    rfl

/-- `kernel_main` starts in its idle loop, which is not a user process. -/
theorem isUser_kernelMain {procIdle idleStack : Word} {shell : Option (ElfPages × Word)}
    {idle : ProcIndex}
    (hmain : kernelMain entryPoints procIdle idleStack shell = some (idle, k)) :
    (k.procTable idle).isUser = false := by
  have hstarted : ∀ (last : Kernel) (i : ProcIndex),
      ((startScheduler last i).procTable i).isUser = (last.procTable i).isUser := fun last i ↦
    Kernel.modify_field _ i i (fun process ↦ { process with state := .running }) Process.isUser
      fun _ ↦ rfl
  rw [kernelMain] at hmain
  rcases hidle : procCreate entryPoints idleStack [0x69#8, 0x64#8, 0x6C#8, 0x65#8] procIdle
    (procInit Kernel.bss) with ⟨_ | i, first⟩
  · rw [hidle] at hmain
    cases hmain
  rw [hidle] at hmain
  have hfirst := isUser_procCreate hidle
  have hadded := processAdded_procCreate hidle
  have hready : InUse first i := by
    rw [InUse, hadded.used_after]
    exact ProcState.noConfusion
  rcases shell with _ | ⟨pages, entry⟩
  · cases hmain
    rw [hstarted, hfirst]
  · rcases hshell : procCreateElf entryPoints pages entry first with ⟨_ | p, second⟩
    · simp [hshell] at hmain
    simp only [hshell, Option.some.injEq, Prod.mk.injEq] at hmain
    obtain ⟨rfl, rfl⟩ := hmain
    have hkept := entryStacksKept_procCreateElf (k := first) entryPoints pages entry
    rw [hshell] at hkept
    rw [hstarted, hkept.isUser_eq i hready, hfirst]

/-- The run lemma. -/
theorem entryStack_of_run {events : List MachineEvent}
    (hrun : ((timerSystem entryPoints gate).restrict NoNestedSchedule).Run events m) :
    OwnerInvariant m ∧ EntryStack m.kernel (servedProcess m.running m.stack.calls) := by
  refine hrun.invariant (motive := fun m ↦ OwnerInvariant m ∧
    EntryStack m.kernel (servedProcess m.running m.stack.calls)) (fun m hstart ↦ ?_) ?_
  · have horigin : (timerSystem entryPoints gate).start m := hstart
    have howner := OwnerInvariant.start horigin
    refine ⟨howner, ?_⟩
    have hcurrent : m.kernel.currentProc = some m.running := by
      obtain ⟨procIdle, idleStack, shell, idle, k, hmain, rfl⟩ := horigin
      exact (SchedulerInvariant.start ⟨procIdle, idleStack, shell, hmain⟩).current_eq
    rw [servedProcess_eq (howner.calls.all_pending hcurrent)]
    obtain ⟨procIdle, idleStack, shell, idle, k, hmain, rfl⟩ := horigin
    intro huser
    exact absurd ((isUser_kernelMain hmain).symm.trans huser) Bool.noConfusion
  · rintro m event after ⟨howner, hentry⟩ ⟨hnested, hstep⟩
    have hafter := howner.step hnested hstep
    exact ⟨hafter, entryStack_step howner hafter (callsStep_of_step howner.used hnested hstep)
      hentry⟩

/-- In every state of a run without a `schedule` nested in the window, whenever the timer is let in
and wherever in `schedule`, a process whose own code runs is current, and when it is a user process,
interrupts and system calls come in on its own kernel stack. -/
theorem entry_stack_run {events : List MachineEvent}
    (hrun : ((timerSystem entryPoints gate).restrict NoNestedSchedule).Run events m)
    (hcode : m.stack.atCode = true) :
    m.kernel.currentProc = some m.running ∧
      ((m.kernel.procTable m.running).isUser = true →
        m.kernel.tssRsp0 = (m.kernel.procTable m.running).kernelRsp) := by
  obtain ⟨howner, hentry⟩ := entryStack_of_run hrun
  obtain ⟨hcall, hhandlers⟩ := Stack.atCode_cases hcode
  have hempty : m.stack.calls = [] := by
    rw [Stack.calls_of_nil hhandlers, hcall]
    rfl
  have hcalls := howner.calls
  rw [hempty] at hcalls hentry
  refine ⟨?_, hentry⟩
  cases hcalls with
  | steady hcurrent => exact hcurrent
  | leaving call rest p hcons => cases hcons

/-- The shell, dispatched by the tenth tick, comes to its own code. -/
def shellDispatched : List MachineEvent :=
  firstDispatch ++ [.statement]

def shellState : Option Machine :=
  shellDispatched.foldlM (fun m event ↦
    if NoNestedSchedule m event then event.perform ⟨1#64, 2#64⟩ hardwareGate m else none)
    (.boot 0 twoReady)

theorem shellState_isSome : shellState.isSome = true := by
  decide +kernel

/-- The shell is current then, and interrupted onto its own kernel stack. -/
theorem entry_stack_run_shell : ∃ m : Machine,
    ((timerSystem ⟨1#64, 2#64⟩ hardwareGate).restrict NoNestedSchedule).Run shellDispatched m ∧
      m.running = 1 ∧ m.kernel.currentProc = some 1 ∧
        m.kernel.tssRsp0 = (m.kernel.procTable 1).kernelRsp := by
  have hrun : ((timerSystem ⟨1#64, 2#64⟩ hardwareGate).restrict NoNestedSchedule).Run
      shellDispatched (shellState.get shellState_isSome) :=
    TransitionSystem.Run.restrict_of_get (start_twoReady hardwareGate) shellState_isSome
  have hrunning : (shellState.get shellState_isSome).running = 1 := by decide +kernel
  have hcode : (shellState.get shellState_isSome).stack.atCode = true := by decide +kernel
  have huser : ((shellState.get shellState_isSome).kernel.procTable 1).isUser = true := by
    decide +kernel
  generalize shellState.get shellState_isSome = m at hrun hrunning hcode huser
  obtain ⟨hcurrent, hstack⟩ := entry_stack_run hrun hcode
  rw [hrunning] at hcurrent hstack
  exact ⟨m, hrun, hrunning, hcurrent, hstack huser⟩

end Runs

end Colix.Proc
