import Colix.Arch.ContextRun
import Colix.Proc.Contexts

/-!
# Kernel stacks

Where `switch_context` stores when `schedule` switches to a process. `switchContext` is its effect
on the process table and `runCode_switchContext` that the code in memory has that effect, with one
store outside the saved contexts, at the incoming stack pointer. Along runs from `kernel_main`,
`dispatch_in_stack_iff` says when that store is in the kernel stack allocated for the process.
-/

set_option autoImplicit false
set_option relaxedAutoImplicit false

namespace Colix.Arch

open Foundation Proc

/-! ### `switch_context` on the process table -/

/-- The process table after `switch_context`: the caller's context is in its own entry. -/
def switchContext (k : Kernel) (caller : CpuContext) (switch : ContextSwitch) : Kernel :=
  k.modify switch.old fun process ↦ { process with context := caller }

/-- The context that `switch_context` loads. -/
def loadedContext (k : Kernel) (caller : CpuContext) (switch : ContextSwitch) : CpuContext :=
  ((switchContext k caller switch).procTable switch.new).context

theorem switchContext_context (k : Kernel) (caller : CpuContext) (switch : ContextSwitch)
    (p : ProcIndex) : ((switchContext k caller switch).procTable p).context =
      if p = switch.old then caller else (k.procTable p).context := by
  rw [switchContext]
  by_cases heq : p = switch.old
  · rw [if_pos heq, heq, Kernel.modify_procTable_self]
  · rw [if_neg heq, Kernel.modify_procTable_of_ne _ _ heq]

/-- The code has the effect of `switchContext` on the contexts in memory, and outside the caller's
context it stores only the return address, at the stack pointer it loads. Assumes: the memory holds
the process table's contexts, and neither stack slot lies in one. -/
theorem runCode_switchContext {layout : ContextLayout ProcIndex} {s : Machine} {k : Kernel}
    {switch : ContextSwitch}
    (hcontexts : ∀ p, loadContext s.memory (layout.context p).toNat = (k.procTable p).context)
    (hrdi : s.regs .rdi = layout.context switch.old)
    (hrsi : s.regs .rsi = layout.context switch.new) (hcaller : ClearSlot layout (s.regs .rsp))
    (hloaded : ClearSlot layout (loadedContext k (callerContext s) switch).rsp) :
    (∀ p, loadContext (runCode switchContextCode s).memory (layout.context p).toNat =
        ((switchContext k (callerContext s) switch).procTable p).context) ∧
      load 64 (runCode switchContextCode s).memory
          (loadedContext k (callerContext s) switch).rsp.toNat =
        (loadedContext k (callerContext s) switch).rip ∧
      ∀ position, ¬ InContext (layout.context switch.old) position →
        ¬ InSlot (loadedContext k (callerContext s) switch).rsp position →
          (runCode switchContextCode s).memory position = s.memory position := by
  obtain ⟨saved, hsaved, -, hmemory⟩ := runCode_switchContextCode (s := s)
    (by rw [hrdi]; exact layout.fits _) (by rw [hrsi]; exact layout.fits _)
    (by rw [hrdi]; exact hcaller switch.old)
  rw [hrdi] at hsaved
  have hafter : ∀ p, loadContext saved (layout.context p).toNat =
      ((switchContext k (callerContext s) switch).procTable p).context := by
    intro p
    rw [hsaved, loadContext_storeContext, switchContext_context, hcontexts]
  rw [hrsi, hafter switch.new] at hmemory
  refine ⟨fun p ↦ ?_, ?_, fun position hcontext hslot ↦ ?_⟩
  · rw [hmemory, ← hafter p]
    exact loadContext_store_of_clear hloaded _ p
  · rw [hmemory]
    exact load_store (by decide) _
  · rw [InSlot] at hslot
    rw [InContext, contextSize] at hcontext
    rw [hmemory, store_apply_of_disjoint _ (by change _ ∨ _ + 8 ≤ _; rw [← loadedContext]; omega),
      hsaved]
    refine storeWords_apply_of_disjoint ?_
    simp only [CpuContext.words, List.length_cons, List.length_nil]
    omega

/-! ### Runs -/

/-- The kernel, the kernel stack allocated for the process of each entry, and what that process was
last switched out with since it was created. -/
structure StackState where
  kernel : Kernel
  kstacks : ProcIndex → Option KernelStack
  saved : ProcIndex → Option CpuContext

/-- What happened: a step of the kernel, what its caller is to be resumed with, and the switch. -/
structure StackEvent where
  event : SchedulerEvent
  caller : CpuContext
  switch : Option ContextSwitch

/-- The entry comes into use between the two states. -/
def ComesIntoUse (k next : Kernel) (p : ProcIndex) : Prop :=
  (k.procTable p).state = .unused ∧ (next.procTable p).state ≠ .unused

instance (k next : Kernel) (p : ProcIndex) : Decidable (ComesIntoUse k next p) :=
  inferInstanceAs (Decidable (_ ∧ _))

/-- The kernel after the switch, if there is one. -/
def resume (k : Kernel) (caller : CpuContext) : Option ContextSwitch → Kernel
  | none => k
  | some switch => switchContext k caller switch

/-- What processes were switched out with, after the switch. -/
def saveCaller (saved : ProcIndex → Option CpuContext) (caller : CpuContext) :
    Option ContextSwitch → ProcIndex → Option CpuContext
  | none => saved
  | some switch => Function.update saved switch.old (some caller)

/-- The state after a step that took the kernel to `k` and then made the switch. -/
def StackState.after (s : StackState) (event : SchedulerEvent) (caller : CpuContext) (k : Kernel)
    (switch : Option ContextSwitch) : StackState where
  kernel := resume k caller switch
  kstacks p := if ComesIntoUse s.kernel k p then createdStack event else s.kstacks p
  saved p := if ComesIntoUse s.kernel k p then none else saveCaller s.saved caller switch p

/-- The stacks `kernel_main` has allocated when the scheduler starts. -/
def bootStacks (k : Kernel) (idle : ProcIndex) (idleStack : Word)
    (shell : Option (ElfPages × Word)) (p : ProcIndex) : Option KernelStack :=
  if (k.procTable p).state = .unused then none
  else if p = idle then some ⟨idleStack, kstackSize⟩
  else shell.map fun (pages, _) ↦ ⟨pages.kernelStack, pageSize⟩

/-- Runs of the kernel from `kernel_main` with the contexts that its switches save. -/
def stackSystem (entryPoints : EntryPoints) (idle : ProcIndex) :
    TransitionSystem StackState StackEvent where
  start s := ∃ procIdle idleStack shell,
    kernelMain entryPoints procIdle idleStack shell = some (idle, s.kernel) ∧
      s.kstacks = bootStacks s.kernel idle idleStack shell ∧ s.saved = fun _ ↦ none
  step s step next :=
    (schedulerSystem entryPoints idle).step s.kernel step.event
        (step.event.perform entryPoints s.kernel).1 ∧
      step.switch = (step.event.perform entryPoints s.kernel).2 ∧
        next = s.after step.event step.caller (step.event.perform entryPoints s.kernel).1
          step.switch

/-- The store of a switch to the process lies in its kernel stack: after the switch its entry holds
the context that was loaded. -/
def StoredInStack (s : StackState) (p : ProcIndex) : Prop :=
  ∃ stack, s.kstacks p = some stack ∧ stack.Contains (s.kernel.procTable p).context.rsp

/-- The incoming process has been switched out since it was created, the last time while it was on
its own kernel stack. A process that is switched to from itself was switched out just now. -/
def SwitchedOutOnStack (s : StackState) (caller : CpuContext) (switch : ContextSwitch) : Prop :=
  ∃ context stack,
    (if switch.new = switch.old then some caller else s.saved switch.new) = some context ∧
      s.kstacks switch.new = some stack ∧ stack.Contains context.rsp

/-! ### The invariant -/

/-- Every process in use has a kernel stack, and its saved stack pointer is the one it was last
switched out with, or the top of that stack. -/
structure StackInvariant (idle : ProcIndex) (s : StackState) : Prop where
  scheduler : ∃ current, SchedulerInvariant idle s.kernel current
  stack : ∀ p, (s.kernel.procTable p).state ≠ .unused → ∃ stack, s.kstacks p = some stack ∧
    (s.kernel.procTable p).context.rsp = ((s.saved p).map CpuContext.rsp).getD stack.top

variable {entryPoints : EntryPoints} {idle current : ProcIndex} {s next : StackState} {k : Kernel}
  {event : SchedulerEvent} {caller : CpuContext} {switch : Option ContextSwitch}

/-- The switch writes no state. -/
theorem resume_state (k : Kernel) (caller : CpuContext) (switch : Option ContextSwitch)
    (p : ProcIndex) : ((resume k caller switch).procTable p).state = (k.procTable p).state := by
  cases switch with
  | none => rfl
  | some switch =>
    exact k.modify_field switch.old p (fun process ↦ { process with context := caller })
      Process.state fun _ ↦ rfl

/-- The switch writes the context that it saves. -/
theorem resume_context (k : Kernel) (caller : CpuContext) (switch : ContextSwitch) (p : ProcIndex) :
    ((resume k caller (some switch)).procTable p).context =
      if p = switch.old then caller else (k.procTable p).context :=
  switchContext_context k caller switch p

theorem schedulerInvariant_resume (hinv : SchedulerInvariant idle k current) :
    SchedulerInvariant idle (resume k caller switch) current := by
  refine ⟨?_, fun p ↦ ?_, ?_⟩
  · cases switch with
    | none => exact hinv.current_eq
    | some switch => exact hinv.current_eq
  · rw [resume_state]
    exact hinv.running_iff p
  · rw [resume_state]
    exact hinv.idle_runnable

/-- A step of the kernel that keeps contexts, and the switch it makes. -/
theorem StackInvariant.kept (event : SchedulerEvent) (caller : CpuContext)
    (switch : Option ContextSwitch) (hinv : StackInvariant idle s)
    (hkept : ContextsKept s.kernel k) (hscheduler : SchedulerInvariant idle k current) :
    StackInvariant idle (s.after event caller k switch) ∧
      (s.after event caller k switch).kstacks = s.kstacks ∧
        (s.after event caller k switch).saved = saveCaller s.saved caller switch := by
  have hnone : ∀ p, ¬ ComesIntoUse s.kernel k p := fun p hcomes ↦ hkept.used p hcomes.2 hcomes.1
  have hstacks : (s.after event caller k switch).kstacks = s.kstacks :=
    funext fun p ↦ if_neg (hnone p)
  have hsaved : (s.after event caller k switch).saved = saveCaller s.saved caller switch :=
    funext fun p ↦ if_neg (hnone p)
  refine ⟨⟨⟨current, schedulerInvariant_resume hscheduler⟩, fun p hp ↦ ?_⟩, hstacks, hsaved⟩
  change ((resume k caller switch).procTable p).state ≠ .unused at hp
  rw [resume_state] at hp
  obtain ⟨stack, hstack, hrsp⟩ := hinv.stack p (hkept.used p hp)
  refine ⟨stack, (congrFun hstacks p).trans hstack, ?_⟩
  rw [hsaved]
  change ((resume k caller switch).procTable p).context.rsp = _
  cases switch with
  | none =>
    rw [resume, saveCaller, hkept.context_eq]
    exact hrsp
  | some switch =>
    rw [resume_context, saveCaller, hkept.context_eq]
    by_cases heq : p = switch.old
    · rw [if_pos heq, heq, Function.update_self]
      rfl
    · rw [if_neg heq, Function.update_of_ne heq]
      exact hrsp

/-- A step of the kernel that creates a process. -/
theorem StackInvariant.created (hinv : StackInvariant idle s) {p : ProcIndex} {stack : KernelStack}
    (hstack : createdStack event = some stack) (hcreated : StackCreated s.kernel k p stack)
    (hscheduler : SchedulerInvariant idle k current) :
    StackInvariant idle (s.after event caller k none) := by
  refine ⟨⟨current, hscheduler⟩, fun i hi ↦ ?_⟩
  change (k.procTable i).state ≠ .unused at hi
  change ∃ stack, (if ComesIntoUse s.kernel k i then createdStack event else s.kstacks i) =
    some stack ∧ (k.procTable i).context.rsp =
      ((if ComesIntoUse s.kernel k i then none else s.saved i).map CpuContext.rsp).getD stack.top
  by_cases heq : i = p
  · subst heq
    have hcomes : ComesIntoUse s.kernel k i := ⟨hcreated.unused_before, hcreated.used_after⟩
    rw [if_pos hcomes, if_pos hcomes]
    exact ⟨stack, hstack, hcreated.rsp_eq⟩
  · have hsame := hcreated.others i heq
    have hnot : ¬ ComesIntoUse s.kernel k i := by
      rintro ⟨hunused, hused⟩
      rw [hsame] at hused
      exact hused hunused
    rw [hsame] at hi ⊢
    rw [if_neg hnot, if_neg hnot]
    exact hinv.stack i hi

/-- The step lemma. -/
theorem StackInvariant.step {step : StackEvent} (hinv : StackInvariant idle s)
    (hstep : (stackSystem entryPoints idle).step s step next) : StackInvariant idle next := by
  obtain ⟨hkernel, hswitch, rfl⟩ := hstep
  obtain ⟨current, hcurrent⟩ := hinv.scheduler
  obtain ⟨current', hscheduler⟩ := (hcurrent.step hkernel).invariant
  rcases step.event.perform_cases hcurrent.currentInUse entryPoints with hkept | hcreated
  · exact (hinv.kept _ _ _ hkept hscheduler).1
  · obtain ⟨hnone, p, stack, hstack, hcreated⟩ := hcreated
    rw [hswitch, hnone]
    exact hinv.created hstack hcreated hscheduler

/-- The processes that `kernel_main` creates are on top of their stacks. -/
theorem bootStacks_of_kernelMain {procIdle idleStack : Word} {shell : Option (ElfPages × Word)}
    (hmain : kernelMain entryPoints procIdle idleStack shell = some (idle, k)) {p : ProcIndex}
    (hused : (k.procTable p).state ≠ .unused) :
    ∃ stack, bootStacks k idle idleStack shell p = some stack ∧
      (k.procTable p).context.rsp = stack.top := by
  rw [kernelMain] at hmain
  rcases hidle : procCreate entryPoints idleStack [0x69#8, 0x64#8, 0x6C#8, 0x65#8] procIdle
    (procInit Kernel.bss) with ⟨_ | i, first⟩
  · rw [hidle] at hmain
    cases hmain
  rw [hidle] at hmain
  have hfirst := stackCreated_procCreate hidle
  -- what starting the scheduler leaves of an entry, and of the one made current
  have hcontext : ∀ last : Kernel, ((startScheduler last i).procTable p).context =
      (last.procTable p).context := fun last ↦
    Kernel.modify_field _ i p (fun process ↦ { process with state := .running }) Process.context
      fun _ ↦ rfl
  have hothers : ∀ last : Kernel, p ≠ i →
      (startScheduler last i).procTable p = last.procTable p :=
    fun last hne ↦ Kernel.modify_procTable_of_ne _ _ hne
  have hunused : p ≠ i → (first.procTable p).state = .unused := by
    intro hne
    rw [hfirst.others p hne]
    rfl
  rcases shell with _ | ⟨pages, entry⟩
  · cases hmain
    rw [bootStacks, if_neg hused, hcontext]
    by_cases heq : p = idle
    · rw [if_pos heq, heq]
      exact ⟨_, rfl, hfirst.rsp_eq⟩
    · rw [hothers _ heq] at hused
      exact absurd (hunused heq) hused
  · rcases hshell : procCreateElf entryPoints pages entry first with ⟨_ | shellIndex, second⟩
    · simp [hshell] at hmain
    simp only [hshell, Option.some.injEq, Prod.mk.injEq] at hmain
    obtain ⟨rfl, rfl⟩ := hmain
    have hsecond := stackCreated_procCreateElf hshell
    rw [bootStacks, if_neg hused, hcontext]
    by_cases heq : p = i
    · have hne : p ≠ shellIndex := by
        rintro rfl
        rw [heq] at hsecond
        exact hfirst.used_after hsecond.unused_before
      rw [if_pos heq, hsecond.others p hne, heq]
      exact ⟨_, rfl, hfirst.rsp_eq⟩
    · rw [if_neg heq]
      by_cases hmade : p = shellIndex
      · rw [hmade]
        exact ⟨_, rfl, hsecond.rsp_eq⟩
      · rw [hothers _ heq, hsecond.others p hmade] at hused
        exact absurd (hunused heq) hused

/-- The state `kernel_main` reaches. -/
theorem StackInvariant.start (hstart : (stackSystem entryPoints idle).start s) :
    StackInvariant idle s := by
  obtain ⟨procIdle, idleStack, shell, hmain, hstacks, hsaved⟩ := hstart
  refine ⟨⟨idle, SchedulerInvariant.start ⟨procIdle, idleStack, shell, hmain⟩⟩, fun p hp ↦ ?_⟩
  rw [hstacks, hsaved]
  exact bootStacks_of_kernelMain hmain hp

/-- The run lemma. -/
theorem StackInvariant.of_run {events : List StackEvent}
    (hrun : (stackSystem entryPoints idle).Run events s) : StackInvariant idle s :=
  hrun.invariant (fun _ hstart ↦ StackInvariant.start hstart) fun _ _ _ hinv hstep ↦ hinv.step hstep

/-! ### Dispatches -/

/-- Where a switch stores: where the process was last switched out, or at the top of its stack when
it never was. -/
theorem StackInvariant.dispatch {switch : ContextSwitch} (hinv : StackInvariant idle s)
    (hstep : (stackSystem entryPoints idle).step s ⟨event, caller, some switch⟩ next) :
    ∃ stack, s.kstacks switch.new = some stack ∧ next.kstacks switch.new = some stack ∧
      (next.kernel.procTable switch.new).context.rsp =
        ((if switch.new = switch.old then some caller else s.saved switch.new).map
          CpuContext.rsp).getD stack.top := by
  have hnext := hinv.step hstep
  obtain ⟨hkernel, hswitch, rfl⟩ := hstep
  obtain ⟨current, hcurrent⟩ := hinv.scheduler
  obtain ⟨current', hscheduler⟩ := (hcurrent.step hkernel).invariant
  rcases event.perform_cases hcurrent.currentInUse entryPoints with hkept | ⟨hnone, -⟩
  · obtain ⟨-, hstacks, hsaved⟩ := hinv.kept event caller (some switch) hkept hscheduler
    have hmoved : CurrentMoved s.kernel (event.perform entryPoints s.kernel).1
      (event.perform entryPoints s.kernel).2 := event.perform_current
    rw [← hswitch] at hmoved
    have hused := hscheduler.currentInUse switch.new hmoved.2
    rw [← resume_state _ caller (some switch)] at hused
    obtain ⟨stack, hstack, hrsp⟩ := hnext.stack switch.new hused
    refine ⟨stack, (congrFun hstacks _).symm.trans hstack, hstack, ?_⟩
    rw [hrsp, hsaved, saveCaller, Function.update_apply]
  · rw [hnone] at hswitch
    cases hswitch

/-- In every run, the store of a switch lies in the kernel stack of the incoming process exactly
when that process has been switched out since it was created, the last time on that stack. -/
theorem dispatch_in_stack_iff {events : List StackEvent} {switch : ContextSwitch}
    (hrun : (stackSystem entryPoints idle).Run events s)
    (hstep : (stackSystem entryPoints idle).step s ⟨event, caller, some switch⟩ next) :
    StoredInStack next switch.new ↔ SwitchedOutOnStack s caller switch := by
  obtain ⟨stack, hbefore, hafter, hrsp⟩ := (StackInvariant.of_run hrun).dispatch hstep
  rw [StoredInStack, SwitchedOutOnStack, hbefore, hafter, hrsp]
  cases (if switch.new = switch.old then some caller else s.saved switch.new) with
  | none =>
    refine iff_of_false ?_ nofun
    rintro ⟨_, ⟨⟩, htop⟩
    exact stack.not_contains_top htop
  | some context =>
    constructor
    · rintro ⟨_, ⟨⟩, hcontains⟩
      exact ⟨context, stack, rfl, rfl, hcontains⟩
    · rintro ⟨_, _, ⟨⟩, ⟨⟩, hcontains⟩
      exact ⟨stack, rfl, hcontains⟩

/-- A timer interrupt whose caller is to be resumed with this context. -/
def timerAfter (caller : CpuContext) (s : StackState) : StackState :=
  s.after (.call .timer) caller (timerInterrupt s.kernel).1 (timerInterrupt s.kernel).2

/-- Timer interrupts may always happen. -/
theorem run_timerAfter (caller : CpuContext) (hstart : (stackSystem entryPoints idle).start s)
    (n : ℕ) : ∃ events, (stackSystem entryPoints idle).Run events ((timerAfter caller)^[n] s) := by
  induction n with
  | zero => exact ⟨[], TransitionSystem.Run.start hstart⟩
  | succ n ih =>
    obtain ⟨events, hrun⟩ := ih
    rw [Function.iterate_succ_apply']
    have hstep : (stackSystem entryPoints idle).step ((timerAfter caller)^[n] s)
        ⟨.call .timer, caller, (timerInterrupt ((timerAfter caller)^[n] s).kernel).2⟩
          (timerAfter caller ((timerAfter caller)^[n] s)) := ⟨⟨Or.inl rfl, rfl⟩, rfl, rfl⟩
    exact ⟨_, hrun.step hstep⟩

/-- The shell's PML4 and kernel stack at 0x801000 and 0x802000, and its entry point. -/
def shellPages : ElfPages × Word :=
  (⟨0x801000#64, 0x802000#64⟩, 0x400000#64)

/-- The state `kernel_main` reaches with this shell. -/
def shellBoot : StackState :=
  let k := ((kernelMain ⟨1#64, 2#64⟩ 3#64 0x400018#64 (some shellPages)).getD (0, Kernel.bss)).2
  ⟨k, bootStacks k 0 0x400018#64 (some shellPages), fun _ ↦ none⟩

/-- Idle is switched out at the tenth timer interrupt, on its stack, and switched to again when the
shell yields. -/
theorem dispatch_in_stack_iff_yield : ∃ (s next : StackState) (caller : CpuContext),
    (stackSystem ⟨1#64, 2#64⟩ 0).step s ⟨.call .yield, caller, some ⟨1, 0⟩⟩ next ∧
      StoredInStack next 0 := by
  obtain ⟨caller, hcaller⟩ : ∃ caller : CpuContext, caller =
      ⟨0#64, 0#64, 0#64, 0#64, 0#64, 0#64, 0#64, 0x403000#64⟩ := ⟨_, rfl⟩
  have hstart : (stackSystem ⟨1#64, 2#64⟩ 0).start shellBoot :=
    ⟨3#64, 0x400018#64, some shellPages, rfl, rfl, rfl⟩
  have hcurrent : ((timerAfter caller)^[10] shellBoot).kernel.currentProc ≠ some 0 := by
    rw [hcaller]
    decide
  have hswitch : (procYield ((timerAfter caller)^[10] shellBoot).kernel).2 = some ⟨1, 0⟩ := by
    rw [hcaller]
    decide
  have hsaved : ((timerAfter caller)^[10] shellBoot).saved 0 = some caller := by
    rw [hcaller]
    decide
  have hstack : ((timerAfter caller)^[10] shellBoot).kstacks 0 =
      some ⟨0x400018#64, kstackSize⟩ := by
    rw [hcaller]
    rfl
  obtain ⟨events, hrun⟩ := run_timerAfter caller hstart 10
  have hstep : (stackSystem ⟨1#64, 2#64⟩ 0).step ((timerAfter caller)^[10] shellBoot)
      ⟨.call .yield, caller, some ⟨1, 0⟩⟩ _ := ⟨⟨Or.inr hcurrent, rfl⟩, hswitch.symm, rfl⟩
  refine ⟨_, _, caller, hstep, (dispatch_in_stack_iff hrun hstep).mpr
    ⟨caller, _, hsaved, hstack, ?_⟩⟩
  rw [hcaller]
  exact ⟨by decide, by decide⟩

/-- The first dispatch of the shell, at the tenth timer interrupt, stores at 0x803000, behind the
page 0x802000 that is its kernel stack. -/
theorem not_storedInStack_first : ∃ (events : List StackEvent) (s next : StackState)
    (caller : CpuContext),
    (stackSystem ⟨1#64, 2#64⟩ 0).Run events s ∧
      (stackSystem ⟨1#64, 2#64⟩ 0).step s ⟨.call .timer, caller, some ⟨0, 1⟩⟩ next ∧
        (next.kernel.procTable 1).context.rsp = 0x803000#64 ∧
          next.kstacks 1 = some ⟨0x802000#64, 0x1000#64⟩ ∧ ¬ StoredInStack next 1 := by
  have hstart : (stackSystem ⟨1#64, 2#64⟩ 0).start shellBoot :=
    ⟨3#64, 0x400018#64, some shellPages, rfl, rfl, rfl⟩
  have hswitch : (timerInterrupt ((timerAfter Process.zero.context)^[9] shellBoot).kernel).2 =
      some ⟨0, 1⟩ := by decide
  have hrsp : (((timerAfter Process.zero.context)^[10] shellBoot).kernel.procTable 1).context.rsp =
      0x803000#64 := by decide
  have hstack : ((timerAfter Process.zero.context)^[10] shellBoot).kstacks 1 =
      some ⟨0x802000#64, 0x1000#64⟩ := rfl
  obtain ⟨events, hrun⟩ := run_timerAfter Process.zero.context hstart 9
  rw [Function.iterate_succ_apply'] at hrsp hstack
  refine ⟨events, _, _, Process.zero.context, hrun, ⟨⟨Or.inl rfl, rfl⟩, hswitch.symm, ?_⟩, hrsp,
    hstack, ?_⟩
  · rw [timerAfter, hswitch]
    rfl
  · rintro ⟨stack, hsome, hcontains⟩
    rw [hstack, Option.some.injEq] at hsome
    rw [hrsp, ← hsome] at hcontains
    exact absurd hcontains.2 (by decide)

end Colix.Arch
