import Colix.Proc.Contexts

/-!
# Sending and receiving statement by statement

`ipc_send`, `ipc_recv` and `proc_sleep` as processes execute them with interrupts enabled: each
process is at a statement, and the timer may interrupt between any two. What the source brackets
with `cli` and `restore_flags` is one step, and so is `schedule`. The scans of `proc_find` and
`msg_alloc` and the copy of the data take one step for each iteration.

`ProcessFacts` is what a process's place says about its state, and `PreemptInvariant` that the
scheduler's invariant survives ticks in the middle of `proc_sleep`.
-/

set_option autoImplicit false
set_option relaxedAutoImplicit false

namespace Colix.Ipc

open Foundation Proc

/-! ### Where a process is -/

/-- The arguments of `ipc_send`. -/
structure SendArgs where
  dst : Pid
  type : Word32
  data : Option (ℕ → Byte)
  len : Word32

/-- The statements of `ipc_send` on the slot it took, from the last of `msg_alloc` on: clear `next`,
fill in the sender, the type, the length and each byte, and queue the message. -/
inductive FillStage
  | next
  | sender
  | type
  | len
  | data (i : ℕ)
  | queue

/-- Who called `proc_sleep`. -/
inductive SleepCaller
  | recv (out : IpcMessage)
  | user

/-- The statements of `proc_sleep(ms)`: store `sleep_ticks`, make it at least one, mark the process
SLEEPING, call `schedule`, and return. -/
inductive SleepStage
  | store (ms : Word)
  | atLeastOne
  | mark
  | schedule
  | returned

/-- The statement a process executes next, with its local variables. `outside` is the process's own
code, `find` and `allocTest` are at an iteration of their scans, and `recv` is at the top of
`ipc_recv`'s loop. -/
inductive Pc
  | outside
  | find (args : SendArgs) (i : ℕ)
  | checkLen (args : SendArgs) (target : ProcIndex)
  | allocTest (args : SendArgs) (target : ProcIndex) (i : ℕ)
  | allocSet (args : SendArgs) (target : ProcIndex) (m : MsgIndex)
  | fill (args : SendArgs) (target : ProcIndex) (m : MsgIndex) (stage : FillStage)
  | recv (out : IpcMessage)
  | sleep (stage : SleepStage) (caller : SleepCaller)

/-- Where `proc_sleep` returns to. -/
def SleepCaller.resume : SleepCaller → Pc
  | .recv out => .recv out
  | .user => .outside

/-! ### The statements -/

/-- An iteration of `proc_find`. -/
def findStep (k : Kernel) (args : SendArgs) (i : ℕ) : Pc :=
  if h : i < procMax then
    if (k.procTable ⟨i, h⟩).state ≠ .unused ∧ (k.procTable ⟨i, h⟩).pid = args.dst then
      .checkLen args ⟨i, h⟩
    else .find args (i + 1)
  else .outside

/-- An iteration of `msg_alloc`, up to its test. -/
def allocTestStep (k : Kernel) (args : SendArgs) (target : ProcIndex) (i : ℕ) : Pc :=
  if h : i < ipcPoolSize then
    if k.msgUsed ⟨i, h⟩ = false then .allocSet args target ⟨i, h⟩
    else .allocTest args target (i + 1)
  else .outside

/-- `m->data[i] = value`. -/
def setByte (message : IpcMessage) (i : ℕ) (value : Byte) : IpcMessage :=
  { message with data := fun j ↦ if (j : ℕ) = i then value else message.data j }

/-- A statement of `ipc_send` on its slot. -/
def fillStep (k : Kernel) (args : SendArgs) (target : ProcIndex) (m : MsgIndex) :
    FillStage → Kernel × Pc
  | .next =>
    (setMessage k m fun message ↦ { message with next := none }, .fill args target m .sender)
  | .sender =>
    (setMessage k m fun message ↦ { message with fromPid := k.currentPid },
      .fill args target m .type)
  | .type =>
    (setMessage k m fun message ↦ { message with type := args.type }, .fill args target m .len)
  | .len =>
    (setMessage k m fun message ↦ { message with len := args.len }, .fill args target m (.data 0))
  | .data i =>
    match args.data with
    | some src =>
      if i < args.len.toNat then
        (setMessage k m fun message ↦ setByte message i (src i),
          .fill args target m (.data (i + 1)))
      else (k, .fill args target m .queue)
    | none => (k, .fill args target m .queue)
  | .queue =>
    let k := enqueue k target m
    (if (k.procTable target).state = .sleeping then procWakeup k target else k, .outside)

/-- A statement of `proc_sleep` by process `p`. -/
def sleepStep (k : Kernel) (p : ProcIndex) (caller : SleepCaller) : SleepStage → Kernel × Pc
  | .store ms =>
    (k.modify p fun process ↦ { process with sleepTicks := ms * pitHz / 1000#64 },
      .sleep .atLeastOne caller)
  | .atLeastOne =>
    (if (k.procTable p).sleepTicks = 0#64 then
        k.modify p fun process ↦ { process with sleepTicks := 1#64 }
      else k,
      .sleep .mark caller)
  | .mark =>
    (k.modify p fun process ↦ { process with state := .sleeping }, .sleep .schedule caller)
  | .schedule => ((schedule k).1, .sleep .returned caller)
  | .returned => (k, caller.resume)

/-- The next statement of the running process `p`. -/
def statement (k : Kernel) (p : ProcIndex) : Pc → Kernel × Pc
  | .outside => (k, .outside)
  | .find args i => (k, findStep k args i)
  | .checkLen args target =>
    (k, if 256#32 < args.len then .outside else .allocTest args target 0)
  | .allocTest args target i => (k, allocTestStep k args target i)
  | .allocSet args target m =>
    ({ k with msgUsed := Function.update k.msgUsed m true }, .fill args target m .next)
  | .fill args target m stage => fillStep k args target m stage
  | .recv out =>
    match (k.procTable p).msgQueue with
    | some m => ((dequeue k p m out).2, .outside)
    | none => (k, .sleep (.store 10#64) (.recv out))
  | .sleep stage caller => sleepStep k p caller stage

/-! ### Runs -/

/-- The kernel, and where each process is. -/
structure PreemptState where
  kernel : Kernel
  pcs : ProcIndex → Pc

/-- What a process's own code calls. -/
inductive OwnCall
  | send (args : SendArgs)
  | recv (out : IpcMessage)
  | sleep (ms : Word)
  | yield
  | exit (code : Int32)
  | create (kstack : Word) (name : List Byte) (entry : Word)
  | createElf (pages : ElfPages) (entry : Word)

/-- A step: a timer interrupt, the next statement of the running process, or a call of its own
code. -/
inductive PreemptEvent
  | tick
  | statement
  | own (call : OwnCall)

/-- The running process `p` executes a statement. -/
def PreemptState.execute (s : PreemptState) (p : ProcIndex) : PreemptState where
  kernel := (statement s.kernel p (s.pcs p)).1
  pcs := Function.update s.pcs p (statement s.kernel p (s.pcs p)).2

/-- The running process `p` enters a function. -/
def PreemptState.enter (s : PreemptState) (p : ProcIndex) (pc : Pc) : PreemptState :=
  { s with pcs := Function.update s.pcs p pc }

/-- The running process `p` calls. -/
def OwnCall.perform (entryPoints : EntryPoints) (s : PreemptState) (p : ProcIndex) :
    OwnCall → PreemptState
  | .send args => s.enter p (.find args 0)
  | .recv out => s.enter p (.recv out)
  | .sleep ms => s.enter p (.sleep (.store ms) .user)
  | .yield => { s with kernel := (procYield s.kernel).1 }
  | .exit code => { s with kernel := (procExit s.kernel code).1 }
  | .create kstack name entry =>
    { s with kernel := (procCreate entryPoints kstack name entry s.kernel).2 }
  | .createElf pages entry =>
    { s with kernel := (procCreateElf entryPoints pages entry s.kernel).2 }

/-- A place in the process's own code. -/
def Pc.isOutside : Pc → Bool
  | .outside => true
  | _ => false

/-- The calls that the idle process may make, which is `kernel_main`: it creates processes, and
yields. -/
def OwnCall.byIdle : OwnCall → Bool
  | .create .. | .createElf .. | .yield => true
  | _ => false

/-- Whether process `p` may call. -/
def PreemptState.mayCall (s : PreemptState) (idle p : ProcIndex) (call : OwnCall) : Bool :=
  (s.pcs p).isOutside && (call.byIdle || p != idle)

/-- The state after a step, when the step is possible. -/
def PreemptEvent.perform (entryPoints : EntryPoints) (idle : ProcIndex) (s : PreemptState) :
    PreemptEvent → Option PreemptState
  | .tick => some { s with kernel := (timerInterrupt s.kernel).1 }
  | .statement => s.kernel.currentProc.map s.execute
  | .own call => s.kernel.currentProc.bind fun p ↦
    if s.mayCall idle p call then some (call.perform entryPoints s p) else none

/-- Runs from `kernel_main`. -/
def preemptSystem (entryPoints : EntryPoints) (idle : ProcIndex) :
    TransitionSystem PreemptState PreemptEvent :=
  .ofFunction
    (fun s ↦ (∃ procIdle idleStack shell,
      kernelMain entryPoints procIdle idleStack shell = some (idle, s.kernel)) ∧
        s.pcs = fun _ ↦ .outside)
    (PreemptEvent.perform entryPoints idle)

/-- Idle as `kernel_main` leaves it without a shell. -/
theorem start_idleAlone :
    (preemptSystem ⟨1#64, 2#64⟩ 0).start ⟨idleAlone, fun _ ↦ .outside⟩ :=
  ⟨⟨3#64, 0x400018#64, none, rfl⟩, rfl⟩

/-- `kernel_main` creates two kernel processes, and the tenth tick starts the first. -/
def twoCreated : List PreemptEvent :=
  [.own (.create 0x404018#64 [0x61#8] 5#64), .own (.create 0x408018#64 [0x62#8] 6#64)] ++
    List.replicate 10 .tick

/-! ### What a place says about a process -/

/-- A process is SLEEPING only in `proc_sleep`, behind the mark, and when `ipc_recv` called it
there, it sleeps for one tick. -/
structure ProcessFacts (process : Process) (pc : Pc) : Prop where
  sleeping : process.state = .sleeping →
    ∃ caller, pc = .sleep .schedule caller ∨ pc = .sleep .returned caller
  store : ∀ ms out, pc = .sleep (.store ms) (.recv out) → ms = 10#64
  ticks : ∀ stage out, pc = .sleep stage (.recv out) →
    stage = .atLeastOne ∨ stage = .mark ∨ process.state = .sleeping → process.sleepTicks = 1#64

variable {process after : Process} {pc : Pc} {k next : Kernel} {idle current p : ProcIndex}

/-- Whatever keeps `sleep_ticks` and puts nobody to sleep keeps the facts. -/
theorem ProcessFacts.kept (hfacts : ProcessFacts process pc)
    (hticks : after.sleepTicks = process.sleepTicks)
    (hsleeping : after.state = .sleeping → process.state = .sleeping) :
    ProcessFacts after pc where
  sleeping h := hfacts.sleeping (hsleeping h)
  store := hfacts.store
  ticks stage out hpc h := by
    rw [hticks]
    exact hfacts.ticks stage out hpc (h.imp_right (Or.imp_right hsleeping))

/-- The facts about a process in its own code or in `ipc_send`, or at the top of `ipc_recv`. -/
theorem ProcessFacts.of_awake (hawake : process.state ≠ .sleeping)
    (hplace : ∀ stage caller, pc ≠ .sleep stage caller) : ProcessFacts process pc where
  sleeping h := absurd h hawake
  store _ _ hpc := absurd hpc (hplace _ _)
  ticks _ _ hpc _ := absurd hpc (hplace _ _)

/-- A process that sleeps for one tick is READY after the countdown. -/
theorem countdown_state_of_one (hsleeping : process.state = .sleeping)
    (hticks : process.sleepTicks = 1#64) : (countdown process).state = .ready := by
  rw [countdown, if_pos hsleeping, hticks]
  rfl

theorem countdown_of_awake (hawake : process.state ≠ .sleeping) : countdown process = process :=
  if_neg hawake

/-- The countdown keeps the facts. -/
theorem ProcessFacts.countdown (hfacts : ProcessFacts process pc) :
    ProcessFacts (Proc.countdown process) pc := by
  by_cases hsleeping : process.state = .sleeping
  · obtain ⟨caller, hpc⟩ := hfacts.sleeping hsleeping
    refine ⟨fun _ ↦ ⟨caller, hpc⟩, hfacts.store, fun stage out hstage hcase ↦ ?_⟩
    have hready := countdown_state_of_one hsleeping
      (hfacts.ticks stage out hstage (Or.inr (Or.inr hsleeping)))
    rw [hstage] at hpc
    rcases hcase with rfl | rfl | hasleep
    · simp at hpc
    · simp at hpc
    · rw [hready] at hasleep
      cases hasleep
  · rwa [countdown_of_awake hsleeping]

/-- The facts about a process in `proc_sleep` after its call of `schedule`. -/
theorem ProcessFacts.schedule_returned {caller : SleepCaller}
    (hfacts : ProcessFacts process (.sleep .schedule caller)) :
    ProcessFacts process (.sleep .returned caller) where
  sleeping _ := ⟨caller, Or.inr rfl⟩
  store := nofun
  ticks stage out hstage h := by
    cases hstage
    refine hfacts.ticks _ out rfl (Or.inr (Or.inr ?_))
    exact (h.resolve_left nofun).resolve_left nofun

/-! ### What the kernel's operations leave -/

/-- Nobody is put to sleep, and no `sleep_ticks` is written. -/
structure NapsKept (k next : Kernel) : Prop where
  ticks_eq : ∀ i, (next.procTable i).sleepTicks = (k.procTable i).sleepTicks
  sleeping : ∀ i, (next.procTable i).state = .sleeping → (k.procTable i).state = .sleeping

theorem NapsKept.refl (k : Kernel) : NapsKept k k :=
  ⟨fun _ ↦ rfl, fun _ h ↦ h⟩

theorem NapsKept.trans {last : Kernel} (hfirst : NapsKept k next) (hsecond : NapsKept next last) :
    NapsKept k last :=
  ⟨fun i ↦ (hsecond.ticks_eq i).trans (hfirst.ticks_eq i),
    fun i h ↦ hfirst.sleeping i (hsecond.sleeping i h)⟩

theorem NapsKept.of_eq (hticks : ∀ i, (next.procTable i).sleepTicks = (k.procTable i).sleepTicks)
    (hstate : ∀ i, (next.procTable i).state = (k.procTable i).state) : NapsKept k next :=
  ⟨hticks, fun i h ↦ (hstate i).symm.trans h⟩

/-- An entry that `schedule` leaves neither READY nor RUNNING was so before. -/
theorem state_of_schedule {k : Kernel} {i : ProcIndex} {state : ProcState}
    (hstate : ((schedule k).1.procTable i).state = state) (hready : state ≠ .ready)
    (hrunning : state ≠ .running) : (k.procTable i).state = state := by
  cases hcurrent : k.currentProc with
  | none => rwa [schedule, hcurrent] at hstate
  | some old =>
    rcases schedule_cases hcurrent with ⟨q, -, hdispatch⟩ | ⟨-, -, hsame⟩
    · rw [hdispatch, dispatch_state, requeue_state] at hstate
      split_ifs at hstate
      · exact absurd hstate.symm hrunning
      · exact absurd hstate.symm hready
      · exact hstate
    · rwa [hsame] at hstate

theorem napsKept_schedule (k : Kernel) : NapsKept k (schedule k).1 :=
  ⟨schedule_field Process.sleepTicks (fun _ _ ↦ rfl) (fun _ _ ↦ rfl) k,
    fun _ h ↦ state_of_schedule h ProcState.noConfusion ProcState.noConfusion⟩

theorem napsKept_procWakeup (k : Kernel) (q : ProcIndex) : NapsKept k (procWakeup k q) := by
  refine ⟨fun i ↦ procWakeup_field Process.sleepTicks (fun _ _ ↦ rfl) k q i, fun i h ↦ ?_⟩
  rw [procWakeup] at h
  split_ifs at h with hsleeping
  · by_cases heq : i = q
    · rw [heq, hsleeping]
    · rwa [Kernel.modify_procTable_of_ne _ _ heq] at h
  · exact h

/-- The append and the wakeup of `ipc_send`. -/
def queueAndWake (k : Kernel) (target : ProcIndex) (m : MsgIndex) : Kernel :=
  procWakeup (enqueue k target m) target

/-- The last statement of `ipc_send` wakes its target when it sleeps. -/
theorem fillStep_queue (k : Kernel) (args : SendArgs) (target : ProcIndex) (m : MsgIndex) :
    fillStep k args target m .queue = (queueAndWake k target m, .outside) := by
  rw [fillStep, queueAndWake]
  split_ifs with hsleeping
  · rfl
  · rw [procWakeup, if_neg hsleeping]

/-! ### The invariant -/

/-- The scheduler's invariant with a process perhaps in the middle of `proc_sleep`: the current
process is RUNNING or about to call `schedule` there. -/
structure PreemptInvariant (idle : ProcIndex) (s : PreemptState) (current : ProcIndex) : Prop where
  entry : SchedulerEntry idle s.kernel current
  runs : (s.kernel.procTable current).state = .running ∨
    ∃ caller, s.pcs current = .sleep .schedule caller
  facts : ∀ p, ProcessFacts (s.kernel.procTable p) (s.pcs p)
  unused_outside : ∀ p, (s.kernel.procTable p).state = .unused → s.pcs p = .outside
  idle_outside : s.pcs idle = .outside

variable {s : PreemptState} {pcs : ProcIndex → Pc}

/-- Calling `schedule` re-establishes the invariant, for the process it dispatches. -/
theorem preemptInvariant_schedule (hentry : SchedulerEntry idle k current)
    (hfacts : ∀ p, ProcessFacts (k.procTable p) (pcs p))
    (hunused : ∀ p, (k.procTable p).state = .unused → pcs p = .outside)
    (hidle : pcs idle = .outside) :
    ∃ q, PreemptInvariant idle ⟨(schedule k).1, pcs⟩ q := by
  obtain ⟨q, -, -, hinv⟩ := schedule_dispatches hentry
  have hnaps := napsKept_schedule k
  exact ⟨q, hinv.entry, Or.inl ((hinv.running_iff q).mpr rfl),
    fun p ↦ (hfacts p).kept (hnaps.ticks_eq p) (hnaps.sleeping p),
    fun p h ↦ hunused p (state_of_schedule h ProcState.noConfusion ProcState.noConfusion), hidle⟩

/-- A statement of the running process that keeps the states. -/
theorem PreemptInvariant.moved (hinv : PreemptInvariant idle s current)
    (hrunning : (s.kernel.procTable current).state = .running) (hkept : StatesKept s.kernel k)
    (hunused : ∀ p, (k.procTable p).state = .unused → (s.kernel.procTable p).state = .unused)
    (hothers : ∀ p, p ≠ current → ProcessFacts (k.procTable p) (s.pcs p))
    (hown : ProcessFacts (k.procTable current) pc) (hidle : current = idle → pc = .outside) :
    PreemptInvariant idle ⟨k, Function.update s.pcs current pc⟩ current := by
  have hstill := (hkept.running_iff current).mpr hrunning
  refine ⟨hinv.entry.kept hkept, Or.inl hstill, fun p ↦ ?_, fun p h ↦ ?_, ?_⟩
  · change ProcessFacts (k.procTable p) (Function.update s.pcs current pc p)
    by_cases heq : p = current
    · rw [heq, Function.update_self]
      exact hown
    · rw [Function.update_of_ne heq]
      exact hothers p heq
  · change (k.procTable p).state = .unused at h
    change Function.update s.pcs current pc p = .outside
    by_cases heq : p = current
    · rw [heq, hstill] at h
      cases h
    · rw [Function.update_of_ne heq]
      exact hinv.unused_outside p (hunused p h)
  · change Function.update s.pcs current pc idle = .outside
    by_cases heq : idle = current
    · rw [heq, Function.update_self]
      exact hidle heq.symm
    · rw [Function.update_of_ne heq]
      exact hinv.idle_outside

/-! ### Statements that disturb nobody -/

/-- The states are kept, nobody is put to sleep, and no entry becomes UNUSED. -/
structure QuietStep (k next : Kernel) : Prop where
  states : StatesKept k next
  naps : NapsKept k next
  unused : ∀ p, (next.procTable p).state = .unused → (k.procTable p).state = .unused

theorem QuietStep.trans {last : Kernel} (hfirst : QuietStep k next)
    (hsecond : QuietStep next last) :
    QuietStep k last :=
  ⟨hfirst.states.trans hsecond.states, hfirst.naps.trans hsecond.naps,
    fun p h ↦ hfirst.unused p (hsecond.unused p h)⟩

/-- Steps that leave the processes alone but for their queues. -/
theorem QuietStep.of_eq (hcurrent : next.currentProc = k.currentProc)
    (hstate : ∀ i, (next.procTable i).state = (k.procTable i).state)
    (hcode : ∀ i, (next.procTable i).exitCode = (k.procTable i).exitCode)
    (hticks : ∀ i, (next.procTable i).sleepTicks = (k.procTable i).sleepTicks) :
    QuietStep k next :=
  ⟨StatesKept.of_eq hcurrent hstate hcode, NapsKept.of_eq hticks hstate,
    fun p h ↦ (hstate p).symm.trans h⟩

theorem quietStep_refl (k : Kernel) : QuietStep k k :=
  QuietStep.of_eq rfl (fun _ ↦ rfl) (fun _ ↦ rfl) fun _ ↦ rfl

theorem quietStep_setMessage (k : Kernel) (m : MsgIndex) (f : IpcMessage → IpcMessage) :
    QuietStep k (setMessage k m f) :=
  QuietStep.of_eq rfl (fun _ ↦ rfl) (fun _ ↦ rfl) fun _ ↦ rfl

theorem quietStep_procWakeup (k : Kernel) (q : ProcIndex) : QuietStep k (procWakeup k q) := by
  refine ⟨statesKept_procWakeup k q, napsKept_procWakeup k q, fun p h ↦ ?_⟩
  rw [procWakeup] at h
  split_ifs at h
  · by_cases heq : p = q
    · rw [heq, Kernel.modify_procTable_self] at h
      cases h
    · rwa [Kernel.modify_procTable_of_ne _ _ heq] at h
  · exact h

theorem quietStep_queueAndWake (k : Kernel) (target : ProcIndex) (m : MsgIndex) :
    QuietStep k (queueAndWake k target m) := by
  refine QuietStep.trans ?_ (quietStep_procWakeup _ target)
  refine QuietStep.of_eq (enqueue_frame k target m).2.1 (fun i ↦ ?_) (fun i ↦ ?_) fun i ↦ ?_
  · exact enqueue_field k target i m Process.state (fun _ _ ↦ rfl) (fun _ _ ↦ rfl) fun _ _ ↦ rfl
  · exact enqueue_field k target i m Process.exitCode (fun _ _ ↦ rfl) (fun _ _ ↦ rfl) fun _ _ ↦ rfl
  · exact enqueue_field k target i m Process.sleepTicks (fun _ _ ↦ rfl) (fun _ _ ↦ rfl)
      fun _ _ ↦ rfl

theorem quietStep_dequeue (k : Kernel) (p : ProcIndex) (m : MsgIndex) (out : IpcMessage) :
    QuietStep k (dequeue k p m out).2 := by
  refine QuietStep.of_eq (dequeue_frame k p m out).2.2.1 (fun i ↦ ?_) (fun i ↦ ?_) fun i ↦ ?_
  · exact state_dequeue ..
  · exact dequeue_field k p i m out Process.exitCode (fun _ _ ↦ rfl) (fun _ _ ↦ rfl) fun _ _ ↦ rfl
  · exact dequeue_field k p i m out Process.sleepTicks (fun _ _ ↦ rfl) (fun _ _ ↦ rfl)
      fun _ _ ↦ rfl

/-- A statement of `ipc_send` on its slot writes the slot, or nothing, or queues it. -/
theorem fillStep_cases (k : Kernel) (args : SendArgs) (target : ProcIndex) (m : MsgIndex)
    (stage : FillStage) :
    (∃ f later, fillStep k args target m stage = (setMessage k m f, .fill args target m later)) ∨
      (∃ later, fillStep k args target m stage = (k, .fill args target m later)) ∨
      stage = .queue ∧ fillStep k args target m stage = (queueAndWake k target m, .outside) := by
  cases stage with
  | next => exact Or.inl ⟨_, _, rfl⟩
  | sender => exact Or.inl ⟨_, _, rfl⟩
  | type => exact Or.inl ⟨_, _, rfl⟩
  | len => exact Or.inl ⟨_, _, rfl⟩
  | data i =>
    rw [fillStep]
    cases args.data with
    | none => exact Or.inr (Or.inl ⟨_, rfl⟩)
    | some src =>
      dsimp only
      split_ifs
      · exact Or.inl ⟨_, _, rfl⟩
      · exact Or.inr (Or.inl ⟨_, rfl⟩)
  | queue => exact Or.inr (Or.inr ⟨rfl, fillStep_queue k args target m⟩)

/-- They disturb nobody, and stay in `ipc_send` or return. -/
theorem fillStep_quiet (k : Kernel) (args : SendArgs) (target : ProcIndex) (m : MsgIndex)
    (stage : FillStage) : QuietStep k (fillStep k args target m stage).1 ∧
      ∀ at' caller, (fillStep k args target m stage).2 ≠ .sleep at' caller := by
  rcases fillStep_cases k args target m stage with ⟨f, later, heq⟩ | ⟨later, heq⟩ | ⟨-, heq⟩
  · rw [heq]
    exact ⟨quietStep_setMessage k m f, nofun⟩
  · rw [heq]
    exact ⟨quietStep_refl k, nofun⟩
  · rw [heq]
    exact ⟨quietStep_queueAndWake k target m, nofun⟩

/-- A statement outside `proc_sleep` disturbs nobody, and stays outside or, with the caller's queue
empty, calls `proc_sleep(10)`. -/
theorem statement_quiet (k : Kernel) (p : ProcIndex)
    (hpc : ∀ stage caller, pc ≠ .sleep stage caller) :
    QuietStep k (statement k p pc).1 ∧
      ((∀ stage caller, (statement k p pc).2 ≠ .sleep stage caller) ∨
        ∃ out, (statement k p pc).2 = .sleep (.store 10#64) (.recv out)) := by
  cases pc with
  | outside => exact ⟨quietStep_refl k, Or.inl nofun⟩
  | find args i =>
    refine ⟨quietStep_refl k, Or.inl fun stage caller ↦ ?_⟩
    rw [statement, findStep]
    split_ifs <;> exact nofun
  | checkLen args target =>
    refine ⟨quietStep_refl k, Or.inl fun stage caller ↦ ?_⟩
    rw [statement]
    dsimp only
    split_ifs <;> exact nofun
  | allocTest args target i =>
    refine ⟨quietStep_refl k, Or.inl fun stage caller ↦ ?_⟩
    rw [statement, allocTestStep]
    split_ifs <;> exact nofun
  | allocSet args target m =>
    exact ⟨QuietStep.of_eq rfl (fun _ ↦ rfl) (fun _ ↦ rfl) fun _ ↦ rfl, Or.inl nofun⟩
  | fill args target m stage =>
    obtain ⟨hquiet, hstays⟩ := fillStep_quiet k args target m stage
    exact ⟨hquiet, Or.inl hstays⟩
  | recv out =>
    rw [statement]
    cases (k.procTable p).msgQueue with
    | some m => exact ⟨quietStep_dequeue k p m out, Or.inl nofun⟩
    | none => exact ⟨quietStep_refl k, Or.inr ⟨out, rfl⟩⟩
  | sleep stage caller => exact absurd rfl (hpc stage caller)

/-! ### Steps -/

/-- A process not about to call `schedule` in `proc_sleep` is RUNNING when it is current. -/
theorem PreemptInvariant.running (hinv : PreemptInvariant idle s current)
    (hpc : ∀ caller, s.pcs current ≠ .sleep .schedule caller) :
    (s.kernel.procTable current).state = .running :=
  hinv.runs.resolve_right fun ⟨caller, hsleep⟩ ↦ hpc caller hsleep

/-- A statement of the current process outside `proc_sleep`. -/
theorem PreemptInvariant.statement_quiet (hinv : PreemptInvariant idle s current)
    (hpc : ∀ stage caller, s.pcs current ≠ .sleep stage caller) :
    PreemptInvariant idle (s.execute current) current := by
  have hrunning := hinv.running fun caller ↦ hpc _ caller
  obtain ⟨hquiet, hnext⟩ := Ipc.statement_quiet s.kernel current hpc
  have hstill := (hquiet.states.running_iff current).mpr hrunning
  refine hinv.moved hrunning hquiet.states hquiet.unused (fun p _ ↦ ?_) ?_ fun heq ↦ ?_
  · exact (hinv.facts p).kept (hquiet.naps.ticks_eq p) (hquiet.naps.sleeping p)
  · have hawake : ((statement s.kernel current (s.pcs current)).1.procTable current).state ≠
        .sleeping := by
      rw [hstill]
      exact ProcState.noConfusion
    rcases hnext with houtside | ⟨out, hout⟩
    · exact ProcessFacts.of_awake hawake houtside
    · rw [hout]
      refine ⟨fun h ↦ absurd h hawake, fun ms _ hms ↦ ?_, fun stage _ hstage hcase ↦ ?_⟩
      · cases hms
        rfl
      · cases hstage
        rcases hcase with hcase | hcase | hcase
        · cases hcase
        · cases hcase
        · exact absurd hcase hawake
  · rw [heq, hinv.idle_outside]
    rfl

/-- Writes of the running process to its own `sleep_ticks`. -/
theorem PreemptInvariant.modified (hinv : PreemptInvariant idle s current)
    (hrunning : (s.kernel.procTable current).state = .running) (hne : current ≠ idle)
    (f : Process → Process) (hstate : ∀ process, (f process).state = process.state)
    (hcode : ∀ process, (f process).exitCode = process.exitCode)
    (hticks : ∀ out, pc = .sleep .atLeastOne (.recv out) ∨ pc = .sleep .mark (.recv out) →
      (f (s.kernel.procTable current)).sleepTicks = 1#64)
    (hpc : ∃ caller, pc = .sleep .atLeastOne caller ∨ pc = .sleep .mark caller) :
    PreemptInvariant idle ⟨s.kernel.modify current f, Function.update s.pcs current pc⟩
      current := by
  have hsame : ∀ p, ((s.kernel.modify current f).procTable p).state =
      (s.kernel.procTable p).state := fun p ↦
    s.kernel.modify_field current p f Process.state hstate
  have hkept : StatesKept s.kernel (s.kernel.modify current f) :=
    StatesKept.of_eq rfl hsame fun p ↦ s.kernel.modify_field current p f Process.exitCode hcode
  refine hinv.moved hrunning hkept (fun p h ↦ (hsame p).symm.trans h) (fun p hp ↦ ?_) ?_
    fun heq ↦ absurd heq hne
  · rw [Kernel.modify_procTable_of_ne _ _ hp]
    exact hinv.facts p
  · have hawake : ((s.kernel.modify current f).procTable current).state ≠ .sleeping := by
      rw [hsame, hrunning]
      exact ProcState.noConfusion
    obtain ⟨caller, hcaller⟩ := hpc
    refine ⟨fun h ↦ absurd h hawake, fun ms out hms ↦ ?_, fun stage out hstage hcase ↦ ?_⟩
    · rw [hms] at hcaller
      rcases hcaller with hcaller | hcaller <;> cases hcaller
    · rw [Kernel.modify_procTable_self]
      refine hticks out ?_
      rcases hcase with rfl | rfl | hsleeping
      · exact Or.inl hstage
      · exact Or.inr hstage
      · exact absurd hsleeping hawake

/-- The process is marked as sleeping, which it stays until it reaches `schedule`. -/
theorem PreemptInvariant.marked (hinv : PreemptInvariant idle s current) (hne : current ≠ idle)
    {caller : SleepCaller} (hpc : s.pcs current = .sleep .mark caller) :
    PreemptInvariant idle { s with
      kernel := s.kernel.modify current fun process ↦ { process with state := .sleeping }
      pcs := Function.update s.pcs current (.sleep .schedule caller) } current := by
  have hfacts := hinv.facts current
  rw [hpc] at hfacts
  have hentry := hinv.entry.modify hne fun process ↦ { process with state := .sleeping }
  have hothers : ∀ p, p ≠ current →
      Function.update s.pcs current (.sleep .schedule caller) p = s.pcs p :=
    fun p hp ↦ Function.update_of_ne hp ..
  refine ⟨hentry, Or.inr ⟨caller, Function.update_self ..⟩, fun p ↦ ?_, fun p h ↦ ?_, ?_⟩
  · dsimp only
    by_cases heq : p = current
    · subst heq
      rw [Kernel.modify_procTable_self, Function.update_self]
      refine ⟨fun _ ↦ ⟨caller, Or.inl rfl⟩, nofun, fun stage out hstage _ ↦ ?_⟩
      cases hstage
      exact hfacts.ticks _ out rfl (Or.inr (Or.inl rfl))
    · rw [hothers p heq, Kernel.modify_procTable_of_ne _ _ heq]
      exact hinv.facts p
  · dsimp only at h ⊢
    by_cases heq : p = current
    · subst heq
      rw [Kernel.modify_procTable_self] at h
      cases h
    · rw [Kernel.modify_procTable_of_ne _ _ heq] at h
      exact (hothers p heq).trans (hinv.unused_outside p h)
  · exact (hothers idle hne.symm).trans hinv.idle_outside

/-- The statements of `proc_sleep`. -/
theorem PreemptInvariant.statement_sleep (hinv : PreemptInvariant idle s current)
    {stage : SleepStage} {caller : SleepCaller} (hpc : s.pcs current = .sleep stage caller) :
    ∃ q, PreemptInvariant idle (s.execute current) q := by
  have hne : current ≠ idle := by
    rintro rfl
    rw [hinv.idle_outside] at hpc
    cases hpc
  have hfacts := hinv.facts current
  rw [hpc] at hfacts
  have hrunning : stage ≠ .schedule → (s.kernel.procTable current).state = .running := by
    intro hstage
    refine hinv.running fun other hother ↦ hstage ?_
    rw [hpc] at hother
    cases hother
    rfl
  rw [PreemptState.execute, hpc]
  cases stage with
  | store ms =>
    refine ⟨current, hinv.modified (hrunning nofun) hne (fun process ↦
      { process with sleepTicks := ms * pitHz / 1000#64 }) (fun _ ↦ rfl) (fun _ ↦ rfl)
        (fun out hout ↦ ?_) ⟨caller, Or.inl rfl⟩⟩
    obtain rfl : caller = .recv out := by
      rcases hout with hout | hout <;> cases hout
      rfl
    rw [hfacts.store ms out rfl]
    rfl
  | atLeastOne =>
    dsimp only [statement, sleepStep]
    split_ifs with hzero
    · exact ⟨current, hinv.modified (hrunning nofun) hne (fun process ↦
        { process with sleepTicks := 1#64 }) (fun _ ↦ rfl) (fun _ ↦ rfl) (fun _ _ ↦ rfl)
        ⟨caller, Or.inr rfl⟩⟩
    · refine ⟨current, hinv.moved (hrunning nofun) (StatesKept.refl _) (fun _ h ↦ h)
        (fun p _ ↦ hinv.facts p) ⟨fun h ↦ ?_, nofun, fun stage out hstage _ ↦ ?_⟩
        fun heq ↦ absurd heq hne⟩
      · rw [hrunning nofun] at h
        cases h
      · cases hstage
        exact hfacts.ticks _ out rfl (Or.inl rfl)
  | mark => exact ⟨current, hinv.marked hne hpc⟩
  | schedule =>
    refine preemptInvariant_schedule hinv.entry (fun p ↦ ?_) (fun p h ↦ ?_) ?_
    · by_cases heq : p = current
      · rw [heq, Function.update_self]
        exact hfacts.schedule_returned
      · rw [Function.update_of_ne heq]
        exact hinv.facts p
    · have heq : p ≠ current := by
        rintro rfl
        have houtside := hinv.unused_outside p h
        rw [hpc] at houtside
        cases houtside
      rw [Function.update_of_ne heq]
      exact hinv.unused_outside p h
    · rw [Function.update_of_ne hne.symm]
      exact hinv.idle_outside
  | returned =>
    have hawake : (s.kernel.procTable current).state ≠ .sleeping := by
      rw [hrunning nofun]
      exact ProcState.noConfusion
    refine ⟨current, hinv.moved (hrunning nofun) (StatesKept.refl _) (fun _ h ↦ h)
      (fun p _ ↦ hinv.facts p) (ProcessFacts.of_awake hawake fun stage other ↦ ?_)
      fun heq ↦ absurd heq hne⟩
    cases caller <;> exact nofun

/-- The timer interrupt. -/
theorem PreemptInvariant.tick (hinv : PreemptInvariant idle s current) :
    ∃ q, PreemptInvariant idle { s with kernel := (timerInterrupt s.kernel).1 } q := by
  have hclock : StatesKept s.kernel { s.kernel with ticks := s.kernel.ticks + 1#64 } :=
    StatesKept.of_eq rfl (fun _ ↦ rfl) fun _ ↦ rfl
  have hcounted := hclock.trans (statesKept_countdownAll _)
  have hfacts := fun p ↦ (hinv.facts p).countdown
  have hunused : ∀ p, (countdown (s.kernel.procTable p)).state = .unused → s.pcs p = .outside :=
    fun p h ↦ hinv.unused_outside p ((countdown_unused_iff _).mp h)
  rw [timerInterrupt, schedTick]
  split_ifs
  · exact preemptInvariant_schedule (hinv.entry.kept hcounted) hfacts hunused hinv.idle_outside
  · exact ⟨current, hinv.entry.kept hcounted,
      hinv.runs.imp_left (hcounted.running_iff current).mpr, hfacts, hunused, hinv.idle_outside⟩

/-- The creation of a process by the running one. -/
theorem PreemptInvariant.added (hinv : PreemptInvariant idle s current)
    (hcreate : k = s.kernel ∨ ∃ p, ProcessAdded s.kernel k p) :
    PreemptInvariant idle { s with kernel := k } current := by
  rcases hcreate with rfl | ⟨p, hadded⟩
  · exact hinv
  have hkept := statesKept_of_added hadded
  have hcase : ∀ i, i = p ∨ i ≠ p ∧ k.procTable i = s.kernel.procTable i := fun i ↦
    or_iff_not_imp_left.mpr fun hne ↦ ⟨hne, hadded.procTable_of_ne i hne⟩
  refine ⟨hinv.entry.kept hkept, hinv.runs.imp_left (hkept.running_iff current).mpr, fun i ↦ ?_,
    fun i h ↦ ?_, hinv.idle_outside⟩
  · rcases hcase i with rfl | ⟨-, hsame⟩
    · refine ProcessFacts.of_awake ?_ ?_
      · rw [hadded.used_after]
        exact ProcState.noConfusion
      · rw [hinv.unused_outside i hadded.unused_before]
        exact nofun
    · dsimp only
      rw [hsame]
      exact hinv.facts i
  · dsimp only at h
    rcases hcase i with rfl | ⟨-, hsame⟩
    · rw [hadded.used_after] at h
      cases h
    · rw [hsame] at h
      exact hinv.unused_outside i h

/-- A running process enters a function. -/
theorem PreemptInvariant.enter (hinv : PreemptInvariant idle s current)
    (houtside : s.pcs current = .outside) (hne : current ≠ idle)
    (hstore : ∀ stage caller, pc = .sleep stage caller → caller = .user) :
    PreemptInvariant idle (s.enter current pc) current := by
  have hrunning : (s.kernel.procTable current).state = .running := by
    refine hinv.running fun caller ↦ ?_
    rw [houtside]
    exact nofun
  refine hinv.moved hrunning (StatesKept.refl _) (fun _ h ↦ h) (fun p _ ↦ hinv.facts p)
    ⟨fun h ↦ ?_, fun ms out hpc ↦ ?_, fun stage out hpc ↦ ?_⟩ fun heq ↦ absurd heq hne
  · rw [hrunning] at h
    cases h
  · cases hstore _ _ hpc
  · cases hstore _ _ hpc

/-- A call of the running process's own code. -/
theorem PreemptInvariant.own (hinv : PreemptInvariant idle s current)
    (houtside : s.pcs current = .outside) {entryPoints : EntryPoints} {call : OwnCall}
    (hidle : call.byIdle = true ∨ current ≠ idle) :
    ∃ q, PreemptInvariant idle (call.perform entryPoints s current) q := by
  cases call with
  | send args => exact ⟨current, hinv.enter houtside (hidle.resolve_left nofun) nofun⟩
  | recv out => exact ⟨current, hinv.enter houtside (hidle.resolve_left nofun) nofun⟩
  | sleep ms =>
    refine ⟨current, hinv.enter houtside (hidle.resolve_left nofun) fun stage caller hpc ↦ ?_⟩
    cases hpc
    rfl
  | yield =>
    exact preemptInvariant_schedule hinv.entry hinv.facts hinv.unused_outside hinv.idle_outside
  | exit code =>
    have hne := hidle.resolve_left nofun
    rw [OwnCall.perform, procExit_eq hinv.entry.current_eq]
    refine preemptInvariant_schedule (hinv.entry.modify hne _) (fun p ↦ ?_) (fun p h ↦ ?_)
      hinv.idle_outside
    · by_cases heq : p = current
      · rw [heq, houtside, Kernel.modify_procTable_self]
        exact ProcessFacts.of_awake nofun nofun
      · rw [Kernel.modify_procTable_of_ne _ _ heq]
        exact hinv.facts p
    · by_cases heq : p = current
      · rw [heq]
        exact houtside
      · rw [Kernel.modify_procTable_of_ne _ _ heq] at h
        exact hinv.unused_outside p h
  | create kstack name entry =>
    exact ⟨current, hinv.added (procCreate_creates entryPoints kstack name entry _).added⟩
  | createElf pages entry =>
    exact ⟨current, hinv.added (procCreateElf_creates entryPoints pages entry _).added⟩

/-! ### Runs from `kernel_main` -/

variable {entryPoints : EntryPoints} {events : List PreemptEvent}

/-- A new process is READY. -/
theorem awake_of_added (hadded : ProcessAdded k next p)
    (hawake : ∀ i, (k.procTable i).state ≠ .sleeping) (i : ProcIndex) :
    (next.procTable i).state ≠ .sleeping := by
  by_cases heq : i = p
  · rw [heq, hadded.used_after]
    exact ProcState.noConfusion
  · rw [hadded.procTable_of_ne i heq]
    exact hawake i

/-- Nobody sleeps when `kernel_main` starts the scheduler. -/
theorem awake_kernelMain {procIdle idleStack : Word} {shell : Option (ElfPages × Word)}
    (hmain : kernelMain entryPoints procIdle idleStack shell = some (idle, k)) (p : ProcIndex) :
    (k.procTable p).state ≠ .sleeping := by
  obtain ⟨first, second, hfirst, hsecond, -, rfl⟩ := kernelMain_cases hmain
  have hidle := awake_of_added hfirst fun _ ↦ ProcState.noConfusion
  have hawake : ∀ i, (second.procTable i).state ≠ .sleeping := by
    rcases hsecond with rfl | ⟨shell, hadded⟩
    · exact hidle
    · exact awake_of_added hadded hidle
  by_cases heq : p = idle
  · rw [startScheduler, heq, Kernel.modify_procTable_self]
    exact ProcState.noConfusion
  · rw [startScheduler, Kernel.modify_procTable_of_ne _ _ heq]
    exact hawake p

/-- `kernel_main` starts with idle RUNNING and nobody asleep. -/
theorem PreemptInvariant.start (hstart : (preemptSystem entryPoints idle).start s) :
    PreemptInvariant idle s idle := by
  obtain ⟨⟨procIdle, idleStack, shell, hmain⟩, hpcs⟩ := hstart
  have hinv : SchedulerInvariant idle s.kernel idle := 
    SchedulerInvariant.start ⟨procIdle, idleStack, shell, hmain⟩
  have houtside : ∀ p, s.pcs p = .outside := fun p ↦ congrFun hpcs p
  refine ⟨hinv.entry, Or.inl ((hinv.running_iff idle).mpr rfl), fun p ↦ ?_,
    fun p _ ↦ houtside p, houtside idle⟩
  rw [houtside p]
  exact ProcessFacts.of_awake (awake_kernelMain hmain p) nofun

theorem Pc.isOutside_iff : pc.isOutside = true ↔ pc = .outside := by
  cases pc <;> simp [isOutside]

/-- A process calls from its own code, and idle only what it may. -/
theorem mayCall_cases {call : OwnCall} (hmay : s.mayCall idle p call = true) :
    s.pcs p = .outside ∧ (call.byIdle = true ∨ p ≠ idle) := by
  rw [PreemptState.mayCall, Bool.and_eq_true, Bool.or_eq_true, bne_iff_ne] at hmay
  exact ⟨Pc.isOutside_iff.mp hmay.1, hmay.2⟩

/-- All that a step can be. -/
theorem preemptStep_cases {event : PreemptEvent} {after : PreemptState}
    (hstep : (preemptSystem entryPoints idle).step s event after) :
    event = .tick ∧ after = { s with kernel := (timerInterrupt s.kernel).1 } ∨
      ∃ p, s.kernel.currentProc = some p ∧
        (event = .statement ∧ after = s.execute p ∨
          ∃ call, event = .own call ∧ s.pcs p = .outside ∧ (call.byIdle = true ∨ p ≠ idle) ∧
            after = call.perform entryPoints s p) := by
  have hperform : event.perform entryPoints idle s = some after := hstep
  cases event with
  | tick =>
    obtain rfl := Option.some.inj hperform
    exact Or.inl ⟨rfl, rfl⟩
  | statement =>
    obtain ⟨p, hp, rfl⟩ := Option.map_eq_some_iff.mp hperform
    exact Or.inr ⟨p, hp, Or.inl ⟨rfl, rfl⟩⟩
  | own call =>
    obtain ⟨p, hp, hcall⟩ := Option.bind_eq_some_iff.mp hperform
    split_ifs at hcall with hmay
    obtain ⟨houtside, hidle⟩ := mayCall_cases hmay
    exact Or.inr ⟨p, hp, Or.inr ⟨call, rfl, houtside, hidle, (Option.some.inj hcall).symm⟩⟩

/-- A step keeps the invariant. -/
theorem PreemptInvariant.step {event : PreemptEvent} {after : PreemptState}
    (hinv : PreemptInvariant idle s current)
    (hstep : (preemptSystem entryPoints idle).step s event after) :
    ∃ q, PreemptInvariant idle after q := by
  rcases preemptStep_cases hstep with ⟨-, rfl⟩ | ⟨p, hp, hcase⟩
  · exact hinv.tick
  · obtain rfl : current = p := Option.some.inj (hinv.entry.current_eq.symm.trans hp)
    rcases hcase with ⟨-, rfl⟩ | ⟨call, -, houtside, hidle, rfl⟩
    · by_cases hasleep : ∃ stage caller, s.pcs current = .sleep stage caller
      · obtain ⟨stage, caller, hpc⟩ := hasleep
        exact hinv.statement_sleep hpc
      · exact ⟨current, hinv.statement_quiet fun stage caller hpc ↦ hasleep ⟨stage, caller, hpc⟩⟩
    · exact hinv.own houtside hidle

/-- The run lemma. -/
theorem PreemptInvariant.of_run (hrun : (preemptSystem entryPoints idle).Run events s) :
    ∃ current, PreemptInvariant idle s current := by
  refine hrun.invariant (motive := fun s ↦ ∃ current, PreemptInvariant idle s current) ?_ ?_
  · exact fun s hstart ↦ ⟨idle, PreemptInvariant.start hstart⟩
  · rintro s event after ⟨current, hinv⟩ hstep
    exact hinv.step hstep

end Colix.Ipc
