import Colix.Ipc.Delivery
import Colix.Proc.Syscall

/-!
# Programs that make system calls

Processes run code of their own and make system calls, any call at any time. The gate of `int 0x80`
keeps timer interrupts out until the call returns, so a call stops only where it gives up the
processor, and the frame with its arguments stays on the stack of its process. A run of programs is
a run of the scheduler (`exists_schedulerRun`), and the messages that the calls return are those
that were sent, once each and in order (`user_messages_fifo`).
-/

set_option autoImplicit false
set_option relaxedAutoImplicit false

namespace Colix.Proc

open Foundation Ipc

/-! ### The machine -/

/-- What a process is doing: its own code, or a system call that has a rest. -/
inductive Activity
  | user
  | inside (call : SystemCall) (rest : Rest)

/-- The kernel with what its processes are doing and what the calls have printed. -/
structure UserMachine where
  kernel : Kernel
  activity : ProcIndex → Activity
  printed : List Byte

/-- A step of a run: the timer interrupt, a new process, a system call, or a process going on with
the rest of its call. A call that has been answered carries its answer. -/
inductive UserEvent
  | timer
  | create (pages : ElfPages) (entry : Word)
  | called (caller : Pid) (call : SystemCall) (answer : Option Answer)
  | resumed (caller : Pid) (call : SystemCall) (answer : Option Answer)

/-- The answer of a call that has one. -/
def CallOutcome.answer : CallOutcome → Option Answer
  | .answered answer => some answer
  | .left _ => none

/-- What the caller goes on with. -/
def CallOutcome.activity (call : SystemCall) : CallOutcome → Activity
  | .answered _ => .user
  | .left rest => .inside call rest

/-- The machine after a part of a call by the process. -/
def UserMachine.handle (m : UserMachine) (p : ProcIndex) (call : SystemCall) (handled : Handled) :
    UserMachine where
  kernel := handled.kernel
  activity := Function.update m.activity p (handled.outcome.activity call)
  printed := m.printed ++ handled.printed

section Handle

variable (m : UserMachine) (p : ProcIndex) (call : SystemCall) (handled : Handled)

@[simp] theorem UserMachine.handle_kernel : (m.handle p call handled).kernel = handled.kernel := rfl

@[simp] theorem UserMachine.handle_activity_self :
    (m.handle p call handled).activity p = handled.outcome.activity call :=
  Function.update_self ..

@[simp] theorem UserMachine.handle_activity_of_ne {q : ProcIndex} (hne : q ≠ p) :
    (m.handle p call handled).activity q = m.activity q :=
  Function.update_of_ne hne ..

end Handle

/-- Runs of programs from `kernel_main`. The idle process makes no calls. A message that a call
returns is a value: the buffer that `ipc_recv` writes it to lies apart from the kernel's data. -/
def userSystem (entryPoints : EntryPoints) (widen : Int32 → Word) (idle : ProcIndex) :
    TransitionSystem UserMachine UserEvent where
  start m := (schedulerSystem entryPoints idle).start m.kernel ∧ (∀ p, m.activity p = .user) ∧
    m.printed = []
  step m event next := ∃ p, m.kernel.currentProc = some p ∧
    match event with
    | .timer => m.activity p = .user ∧ next = { m with kernel := (timerInterrupt m.kernel).1 }
    | .create pages entry => p ≠ idle ∧ m.activity p = .user ∧
        next = { m with kernel := (procCreateElf entryPoints pages entry m.kernel).2 }
    | .called caller call answer => p ≠ idle ∧ m.activity p = .user ∧
        caller = (m.kernel.procTable p).pid ∧
        answer = (syscallHandler widen m.kernel call).outcome.answer ∧
        next = m.handle p call (syscallHandler widen m.kernel call)
    | .resumed caller call answer => p ≠ idle ∧ ∃ rest, m.activity p = .inside call rest ∧
        caller = (m.kernel.procTable p).pid ∧
        answer = (resumeCall m.kernel call rest).outcome.answer ∧
        next = m.handle p call (resumeCall m.kernel call rest)

/-- A call by the process that runs. -/
theorem step_called {m : UserMachine} {idle p : ProcIndex} {entryPoints : EntryPoints}
    {widen : Int32 → Word} (call : SystemCall) (hcurrent : m.kernel.currentProc = some p)
    (hne : p ≠ idle) (huser : m.activity p = .user) :
    (userSystem entryPoints widen idle).step m
      (.called (m.kernel.procTable p).pid call (syscallHandler widen m.kernel call).outcome.answer)
      (m.handle p call (syscallHandler widen m.kernel call)) :=
  ⟨p, hcurrent, hne, huser, rfl, rfl, rfl⟩

/-- The process that runs going on with its call. -/
theorem step_resumed {m : UserMachine} {idle p : ProcIndex} {entryPoints : EntryPoints}
    {widen : Int32 → Word} {call : SystemCall} {rest : Rest}
    (hcurrent : m.kernel.currentProc = some p) (hne : p ≠ idle)
    (hinside : m.activity p = .inside call rest) :
    (userSystem entryPoints widen idle).step m
      (.resumed (m.kernel.procTable p).pid call (resumeCall m.kernel call rest).outcome.answer)
      (m.handle p call (resumeCall m.kernel call rest)) :=
  ⟨p, hcurrent, hne, rest, hinside, rfl, rfl, rfl⟩

/-- The timer interrupt. -/
def UserEvent.isTick : UserEvent → Bool
  | .timer => true
  | _ => false

variable {m next : UserMachine} {idle p : ProcIndex} {entryPoints : EntryPoints}
  {widen : Int32 → Word} {event : UserEvent} {events : List UserEvent}

/-! ### Runs of the scheduler -/

/-- A step leaves the kernel state alone or is a step of the scheduler, a tick when it is one. -/
theorem schedulerStep_or_same (hstep : (userSystem entryPoints widen idle).step m event next) :
    (next.kernel = m.kernel ∧ event.isTick = false) ∨
      ∃ schedulerEvent, schedulerEvent.isTick = event.isTick ∧
        (schedulerSystem entryPoints idle).step m.kernel schedulerEvent next.kernel := by
  obtain ⟨p, hcurrent, hstep⟩ := hstep
  have hnotIdle : p ≠ idle → m.kernel.currentProc ≠ some idle := fun hne hidle ↦
    hne (Option.some.inj (hcurrent.symm.trans hidle))
  have hpart : ∀ handled : Handled, SchedulerPart entryPoints idle m.kernel handled →
      (handled.kernel = m.kernel ∧ false = false) ∨
        ∃ schedulerEvent, schedulerEvent.isTick = false ∧
          (schedulerSystem entryPoints idle).step m.kernel schedulerEvent handled.kernel := by
    rintro handled (hsame | ⟨schedulerEvent, hcall, hlast⟩)
    · exact Or.inl ⟨hsame, rfl⟩
    · exact Or.inr ⟨schedulerEvent, hcall.isTick, hlast⟩
  cases event with
  | timer =>
    obtain ⟨-, rfl⟩ := hstep
    exact Or.inr ⟨.call .timer, rfl, Or.inl rfl, rfl⟩
  | create pages entry =>
    obtain ⟨hne, -, rfl⟩ := hstep
    exact Or.inr ⟨.call (.createElf pages entry), rfl, Or.inr (hnotIdle hne), rfl⟩
  | called caller call answer =>
    obtain ⟨hne, -, -, -, rfl⟩ := hstep
    exact hpart _ (syscallHandler_kernel entryPoints (hnotIdle hne) widen call)
  | resumed caller call answer =>
    obtain ⟨hne, rest, -, -, -, rfl⟩ := hstep
    exact hpart _ (resumeCall_kernel entryPoints (hnotIdle hne) call rest)

/-- The same as a path of the scheduler. -/
theorem exists_schedulerPath (hstep : (userSystem entryPoints widen idle).step m event next) :
    ∃ schedulerEvents, (schedulerSystem entryPoints idle).Path m.kernel schedulerEvents
        next.kernel ∧ tickCount schedulerEvents = if event.isTick then 1 else 0 := by
  rcases schedulerStep_or_same hstep with ⟨hsame, htick⟩ | ⟨schedulerEvent, htick, hlast⟩
  · rw [hsame, htick]
    exact ⟨[], .refl _, rfl⟩
  · refine ⟨[schedulerEvent], TransitionSystem.Path.step (.refl _) hlast, ?_⟩
    rw [tickCount, List.countP_singleton, htick]

/-- A run of programs is a run of the scheduler with the same ticks. -/
theorem exists_schedulerRun (hrun : (userSystem entryPoints widen idle).Run events m) :
    ∃ schedulerEvents, (schedulerSystem entryPoints idle).Run schedulerEvents m.kernel ∧
      tickCount schedulerEvents = events.countP UserEvent.isTick := by
  refine hrun.history_invariant (motive := fun events m ↦ ∃ schedulerEvents,
    (schedulerSystem entryPoints idle).Run schedulerEvents m.kernel ∧
      tickCount schedulerEvents = events.countP UserEvent.isTick) ?_ ?_
  · rintro m ⟨hstart, -, -⟩
    exact ⟨[], TransitionSystem.Run.start hstart, rfl⟩
  · rintro events m event next ⟨before, hbefore, hcount⟩ hstep
    obtain ⟨after, hafter, hticks⟩ := exists_schedulerPath hstep
    refine ⟨before ++ after, hbefore.append hafter, ?_⟩
    rw [tickCount] at hcount hticks ⊢
    rw [List.countP_append, List.countP_append, List.countP_singleton, hcount, hticks]

theorem SchedulerInvariant.of_userRun (hrun : (userSystem entryPoints widen idle).Run events m) :
    ∃ current, SchedulerInvariant idle m.kernel current := by
  obtain ⟨schedulerEvents, hscheduler, -⟩ := exists_schedulerRun hrun
  exact SchedulerInvariant.of_run hscheduler

theorem queuesInOrder_of_userRun (hrun : (userSystem entryPoints widen idle).Run events m) :
    QueuesInOrder m.kernel := by
  obtain ⟨schedulerEvents, hscheduler, -⟩ := exists_schedulerRun hrun
  exact QueuesInOrder.of_schedulerRun hscheduler

theorem pidInvariant_of_userRun (hrun : (userSystem entryPoints widen idle).Run events m) :
    PidInvariant m.kernel := by
  obtain ⟨ipcEvents, hinv⟩ := queuesInOrder_of_userRun hrun
  exact hinv.pids

/-! ### Messages -/

/-- The message a step sends to `pid`, when the call returns 0. -/
def UserEvent.sentTo (pid : Pid) : UserEvent → Option Message
  | .called caller call (some answer) =>
    if call.num = sysIpcSend ∧ call.dst = pid ∧ answer.value = 0#64 then
      some (sentMessage caller call.type call.data call.len)
    else none
  | _ => none

/-- The message an answer brings to `pid`. -/
def UserEvent.receivedBy (pid : Pid) : UserEvent → Option Message
  | .called caller _ answer => answer.bind fun answer ↦
    if caller = pid then answer.received.map heldMessage else none
  | .resumed caller _ answer => answer.bind fun answer ↦
    if caller = pid then answer.received.map heldMessage else none
  | _ => none

/-- The messages sent to `pid`, in send order. -/
def userSentTo (pid : Pid) (events : List UserEvent) : List Message :=
  events.filterMap (UserEvent.sentTo pid)

/-- The messages `pid` received, in the order it did. -/
def userReceivedBy (pid : Pid) (events : List UserEvent) : List Message :=
  events.filterMap (UserEvent.receivedBy pid)

/-- A send with a length comes with data. -/
def UserEvent.GivesData : UserEvent → Prop
  | .called _ call _ => call.num = sysIpcSend → 0#32 < call.len → call.a3 ≠ 0#64
  | _ => True

/-- The same messages are sent and received in two histories. -/
def SameMessages (ipcEvents : List IpcEvent) (events : List UserEvent) : Prop :=
  ∀ pid, Ipc.sentTo pid ipcEvents = userSentTo pid events ∧
    Ipc.receivedBy pid ipcEvents = userReceivedBy pid events

section Messages

variable {k : Kernel} {call : SystemCall} {ipcEvents more : List IpcEvent}

theorem SameMessages.append (hsame : SameMessages ipcEvents events)
    (hmore : SameMessages more [event]) : SameMessages (ipcEvents ++ more) (events ++ [event]) := by
  intro pid
  obtain ⟨hsent, hreceived⟩ := hsame pid
  obtain ⟨hsentMore, hreceivedMore⟩ := hmore pid
  simp only [Ipc.sentTo, userSentTo, Ipc.receivedBy, userReceivedBy, List.filterMap_append] at *
  rw [hsent, hsentMore, hreceived, hreceivedMore]
  exact ⟨rfl, rfl⟩

/-- A step that sends and receives nothing. -/
def UserEvent.Quiet (event : UserEvent) : Prop :=
  ∀ pid, event.sentTo pid = none ∧ event.receivedBy pid = none

theorem UserEvent.Quiet.sameMessages (hquiet : event.Quiet)
    (hmore : ∀ pid, Ipc.sentTo pid more = [] ∧ Ipc.receivedBy pid more = []) :
    SameMessages more [event] := by
  intro pid
  obtain ⟨hsent, hreceived⟩ := hquiet pid
  rw [userSentTo, userReceivedBy, List.filterMap_cons_none hsent,
    List.filterMap_cons_none hreceived]
  exact hmore pid

/-- What a part of a call does to the messages: the history of message passing goes on, with what
the answer tells. -/
def MessagePart (ipcEvents : List IpcEvent) (handled : Handled) (event : UserEvent) : Prop :=
  ∃ more, IpcInvariant (ipcEvents ++ more) handled.kernel ∧ SameMessages more [event]

theorem messagePart_same (hinv : IpcInvariant ipcEvents k) (hquiet : event.Quiet)
    (printed : List Byte) (outcome : CallOutcome) :
    MessagePart ipcEvents ⟨k, printed, outcome⟩ event :=
  ⟨[], by rwa [List.append_nil], hquiet.sameMessages fun _ ↦ ⟨rfl, rfl⟩⟩

theorem ipcInvariant_call (hinv : IpcInvariant ipcEvents k) (entryPoints : EntryPoints)
    (kernelCall : KernelCall) :
    IpcInvariant (ipcEvents ++ [.call kernelCall]) (kernelCall.perform entryPoints k).1 :=
  hinv.step (show (ipcSystem entryPoints).step k (.call kernelCall) _ from rfl)

theorem messagePart_call (hinv : IpcInvariant ipcEvents k) (hquiet : event.Quiet)
    (entryPoints : EntryPoints) (kernelCall : KernelCall) {handled : Handled}
    (hkernel : handled.kernel = (kernelCall.perform entryPoints k).1) :
    MessagePart ipcEvents handled event := by
  refine ⟨[.call kernelCall], ?_, hquiet.sameMessages fun _ ↦ ⟨rfl, rfl⟩⟩
  rw [hkernel]
  exact ipcInvariant_call hinv entryPoints kernelCall

theorem sentTo_called {caller : Pid} (hnum : call.num ≠ sysIpcSend) (answer : Option Answer)
    (pid : Pid) : (UserEvent.called caller call answer).sentTo pid = none := by
  cases answer with
  | none => rfl
  | some answered => exact if_neg fun h ↦ hnum h.1

/-- A call that is no send and answers without a message. -/
theorem quiet_called {caller : Pid} {answer : Option Answer} (hnum : call.num ≠ sysIpcSend)
    (hnone : ∀ answered, answer = some answered → answered.received = none) :
    (UserEvent.called caller call answer).Quiet := by
  refine fun pid ↦ ⟨sentTo_called hnum answer pid, ?_⟩
  cases answer with
  | none => rfl
  | some answered =>
    rw [UserEvent.receivedBy, Option.bind_some, hnone answered rfl, Option.map_none, ite_self]

theorem answer_afterSchedule {result : Kernel × Option ContextSwitch} {printed : List Byte}
    {answer : Answer} (hanswer : (afterSchedule result printed).outcome.answer = some answer) :
    answer = ⟨0#64, none⟩ := by
  rw [afterSchedule] at hanswer
  cases hswitch : result.2 with
  | some switch =>
    rw [hswitch] at hanswer
    cases hanswer
  | none =>
    rw [hswitch] at hanswer
    cases hanswer
    rfl

/-- The results of `ipc_send`. -/
theorem ipcSend_result (k : Kernel) (dst : Pid) (type : Word32) (data : Option (ℕ → Byte))
    (len : Word32) : (ipcSend k dst type data len).1 ∈ [0, -esrch, -einval, -enomem] := by
  rcases ipcSend_cases k dst type data len with ⟨-, hreturn⟩ |
    ⟨target, -, ⟨-, hreturn⟩ | ⟨-, -, hreturn⟩ | ⟨-, m, -, hreturn⟩⟩
  all_goals simp [hreturn]

theorem returnValue_eq_zero_iff {result : ℤ} (hresult : result ∈ [0, -esrch, -einval, -enomem]) :
    returnValue result = 0#64 ↔ result = 0 := by
  simp only [List.mem_cons, List.not_mem_nil, or_false] at hresult
  rcases hresult with rfl | rfl | rfl | rfl <;> decide

/-- A send. -/
theorem messagePart_send {p : ProcIndex} (hinv : IpcInvariant ipcEvents k)
    (hcurrent : k.currentProc = some p) (hnum : call.num = sysIpcSend)
    (hdata : 0#32 < call.len → call.a3 ≠ 0#64) {result : ℤ} {next : Kernel}
    (hsend : ipcSend k call.dst call.type call.data call.len = (result, next)) :
    MessagePart ipcEvents ⟨next, [], .answered ⟨returnValue result, none⟩⟩
      (.called (k.procTable p).pid call (some ⟨returnValue result, none⟩)) := by
  have hpid : k.currentPid = (k.procTable p).pid := by rw [Kernel.currentPid, hcurrent]
  have hsome : 0#32 < call.len → call.data ≠ none := fun hpositive ↦ by
    rw [SystemCall.data, if_neg (hdata hpositive)]
    exact Option.some_ne_none _
  have hresult := ipcSend_result k call.dst call.type call.data call.len
  rw [hsend] at hresult
  refine ⟨_, hinv.send hsome hsend, fun pid ↦ ⟨?_, ?_⟩⟩
  · simp only [Ipc.sentTo, userSentTo, List.filterMap_cons, List.filterMap_nil, IpcEvent.sentTo,
      UserEvent.sentTo, returnValue_eq_zero_iff hresult, hnum, true_and, hpid]
  · simp only [Ipc.receivedBy, userReceivedBy, List.filterMap_cons, List.filterMap_nil,
      IpcEvent.receivedBy, UserEvent.receivedBy, Option.bind_some, Option.map_none, ite_self]

/-- A receive that fails for want of a buffer brings nothing. -/
theorem ipcRecv_null {p : ProcIndex} {out message : Option IpcMessage} {next : Kernel}
    (hcurrent : k.currentProc = some p) (hrecv : ipcRecv k out = .returned (-einval) message next) :
    message = none := by
  cases out with
  | none =>
    simp only [ipcRecv, hcurrent, RecvPass.returned.injEq] at hrecv
    exact hrecv.2.1.symm
  | some buffer =>
    cases hhead : (k.procTable p).msgQueue with
    | none => simp [ipcRecv, hcurrent, hhead] at hrecv
    | some m => simp [ipcRecv, hcurrent, hhead] at hrecv

/-- A pass of a receive, first or later. -/
theorem messagePart_receive {p : ProcIndex} (hinv : IpcInvariant ipcEvents k)
    (hcurrent : k.currentProc = some p)
    (hsent : ∀ pid, event.sentTo pid = none)
    (hreceived : ∀ pid, event.receivedBy pid = (receivePass k call).outcome.answer.bind
      fun answer ↦ if (k.procTable p).pid = pid then answer.received.map heldMessage else none)
    (entryPoints : EntryPoints) :
    MessagePart ipcEvents (receivePass k call) event := by
  have hpid : k.currentPid = (k.procTable p).pid := by rw [Kernel.currentPid, hcurrent]
  rw [receivePass] at hreceived ⊢
  cases hpass : ipcRecv k call.out with
  | slept next switch =>
    rw [hpass] at hreceived
    have hslept := congrArg Prod.fst (ipcRecv_slept hpass)
    exact messagePart_call hinv (fun pid ↦ ⟨hsent pid, hreceived pid⟩) entryPoints (.sleep 10#64)
      hslept.symm
  | returned result message next =>
    rw [hpass] at hreceived
    replace hreceived : ∀ pid, event.receivedBy pid =
        if (k.procTable p).pid = pid then message.map heldMessage else none := hreceived
    rcases ipcRecv_returned_cases hpass with ⟨rfl, rfl⟩ | ⟨q, m, buffer, -, -, -, rfl, rfl, -⟩
    · refine messagePart_same hinv (fun pid ↦ ⟨hsent pid, ?_⟩) _ _
      rw [hreceived, ipcRecv_null hcurrent hpass, Option.map_none, ite_self]
    · obtain ⟨buffer, hbuffer⟩ : ∃ buffer, call.out = some buffer := by
        cases hout : call.out with
        | none => simp [ipcRecv, hcurrent, hout] at hpass
        | some buffer => exact ⟨buffer, rfl⟩
      rw [hbuffer] at hpass
      refine ⟨_, hinv.recv hpass, fun pid ↦ ⟨?_, ?_⟩⟩
      · simp only [Ipc.sentTo, userSentTo, List.filterMap_cons, List.filterMap_nil,
          IpcEvent.sentTo, hsent]
      · simp only [Ipc.receivedBy, userReceivedBy, List.filterMap_cons, List.filterMap_nil,
          IpcEvent.receivedBy, hreceived, hpid, Option.map_some]

/-- The first part of a call. -/
theorem messagePart_called {p : ProcIndex} (hinv : IpcInvariant ipcEvents k)
    (hcurrent : k.currentProc = some p) (entryPoints : EntryPoints) (widen : Int32 → Word)
    (hdata : call.num = sysIpcSend → 0#32 < call.len → call.a3 ≠ 0#64) :
    MessagePart ipcEvents (syscallHandler widen k call)
      (.called (k.procTable p).pid call (syscallHandler widen k call).outcome.answer) := by
  have hdirect : ∀ printed value, call.num ≠ sysIpcSend →
      MessagePart ipcEvents ⟨k, printed, .answered ⟨value, none⟩⟩
        (.called (k.procTable p).pid call (some ⟨value, none⟩)) := fun printed value hnum ↦
    messagePart_same hinv (quiet_called hnum fun answered hanswered ↦ by
      cases hanswered
      rfl) printed _
  have hschedules : ∀ (kernelCall : KernelCall) printed, call.num ≠ sysIpcSend →
      MessagePart ipcEvents (afterSchedule (kernelCall.perform entryPoints k) printed)
        (.called (k.procTable p).pid call
          (afterSchedule (kernelCall.perform entryPoints k) printed).outcome.answer) :=
    fun kernelCall printed hnum ↦
      messagePart_call hinv (quiet_called hnum fun answered hanswered ↦ by
        rw [answer_afterSchedule hanswered]) entryPoints kernelCall (afterSchedule_kernel ..)
  rw [syscallHandler]
  split_ifs with hexit hwrite hgetpid hgetppid hyield hsleep hsend hrecv
  · exact hschedules (.exit call.code) _ (by rw [hexit]; decide)
  · rw [sysWriteHandler]
    have hnum : call.num ≠ sysIpcSend := by rw [hwrite]; decide
    split_ifs
    · exact hdirect _ _ hnum
    · exact hdirect _ _ hnum
  · exact hdirect _ _ (by rw [hgetpid]; decide)
  · exact hdirect _ _ (by rw [hgetppid]; decide)
  · exact hschedules .yield _ (by rw [hyield]; decide)
  · exact hschedules (.sleep call.a1) _ (by rw [hsleep]; decide)
  · exact messagePart_send hinv hcurrent hsend (hdata hsend) rfl
  · exact messagePart_receive hinv hcurrent (sentTo_called hsend _) (fun _ ↦ rfl) entryPoints
  · exact hdirect _ _ hsend

/-- A later part of a call. -/
theorem messagePart_resumed {p : ProcIndex} (hinv : IpcInvariant ipcEvents k)
    (hcurrent : k.currentProc = some p) (entryPoints : EntryPoints) (call : SystemCall)
    (rest : Rest) :
    MessagePart ipcEvents (resumeCall k call rest)
      (.resumed (k.procTable p).pid call (resumeCall k call rest).outcome.answer) := by
  cases rest with
  | value value =>
    refine messagePart_same hinv (fun pid ↦ ⟨rfl, ?_⟩) _ _
    exact ite_self none
  | receive => exact messagePart_receive hinv hcurrent (fun _ ↦ rfl) (fun _ ↦ rfl) entryPoints

end Messages

/-- Along a run of programs message passing goes through a history with the same messages. -/
theorem exists_ipcInvariant (hrun : (userSystem entryPoints widen idle).Run events m)
    (hdata : ∀ event ∈ events, event.GivesData) :
    ∃ ipcEvents, IpcInvariant ipcEvents m.kernel ∧ SameMessages ipcEvents events := by
  refine hrun.history_invariant (motive := fun events m ↦ (∀ event ∈ events, event.GivesData) →
    ∃ ipcEvents, IpcInvariant ipcEvents m.kernel ∧ SameMessages ipcEvents events) ?_ ?_ hdata
  · rintro m ⟨⟨procIdle, idleStack, shell, hmain⟩, -, -⟩ -
    exact ⟨[], IpcInvariant.start ⟨procIdle, idleStack, shell, idle, hmain⟩, fun _ ↦ ⟨rfl, rfl⟩⟩
  · intro events m event next hbefore hstep hdata
    rw [List.forall_mem_append, List.forall_mem_singleton] at hdata
    obtain ⟨ipcEvents, hinv, hsame⟩ := hbefore hdata.1
    obtain ⟨p, hcurrent, hstep⟩ := hstep
    have hpart : ∀ handled : Handled, MessagePart ipcEvents handled event →
        handled.kernel = next.kernel → ∃ ipcEvents, IpcInvariant ipcEvents next.kernel ∧
          SameMessages ipcEvents (events ++ [event]) := by
      rintro handled ⟨more, hmore, hmatch⟩ hkernel
      rw [hkernel] at hmore
      exact ⟨_, hmore, hsame.append hmatch⟩
    cases event with
    | timer =>
      obtain ⟨-, rfl⟩ := hstep
      exact ⟨_, ipcInvariant_call hinv entryPoints .timer,
        hsame.append fun _ ↦ ⟨rfl, rfl⟩⟩
    | create pages entry =>
      obtain ⟨-, -, rfl⟩ := hstep
      exact ⟨_, ipcInvariant_call hinv entryPoints (.createElf pages entry),
        hsame.append fun _ ↦ ⟨rfl, rfl⟩⟩
    | called caller call answer =>
      obtain ⟨-, -, rfl, rfl, rfl⟩ := hstep
      exact hpart _ (messagePart_called hinv hcurrent entryPoints widen hdata.2) rfl
    | resumed caller call answer =>
      obtain ⟨-, rest, -, rfl, rfl, rfl⟩ := hstep
      exact hpart _ (messagePart_resumed hinv hcurrent entryPoints call rest) rfl

/-- What a process has received and what it has in its queue is what it was sent. -/
theorem received_append_queued (hrun : (userSystem entryPoints widen idle).Run events m)
    (hdata : ∀ event ∈ events, event.GivesData) {q : ProcIndex}
    (hq : (m.kernel.procTable q).state ≠ .unused) :
    userReceivedBy (m.kernel.procTable q).pid events ++ queuedMessages m.kernel q =
      userSentTo (m.kernel.procTable q).pid events := by
  obtain ⟨ipcEvents, hinv, hsame⟩ := exists_ipcInvariant hrun hdata
  obtain ⟨hsent, hreceived⟩ := hsame (m.kernel.procTable q).pid
  rw [← hsent, ← hreceived]
  exact hinv.fifo q hq

/-- The messages that the calls of a process return, followed by those in its queue, are the
messages that calls have sent it: each comes once, in the order of the sends, and unchanged. A pid
that no process has is sent nothing. Receive buffers lie apart from the kernel's data. -/
theorem user_messages_fifo (hrun : (userSystem entryPoints widen idle).Run events m)
    (hdata : ∀ event ∈ events, event.GivesData) :
    (∀ q, (m.kernel.procTable q).state ≠ .unused →
      userReceivedBy (m.kernel.procTable q).pid events ++ queuedMessages m.kernel q =
        userSentTo (m.kernel.procTable q).pid events) ∧
    ∀ pid, procFind m.kernel pid = none →
      userSentTo pid events = [] ∧ userReceivedBy pid events = [] := by
  refine ⟨fun q hq ↦ received_append_queued hrun hdata hq, fun pid hpid ↦ ?_⟩
  obtain ⟨ipcEvents, hinv, hsame⟩ := exists_ipcInvariant hrun hdata
  obtain ⟨hsent, hreceived⟩ := hsame pid
  rw [← hsent, ← hreceived]
  refine hinv.silent pid fun q hq heq ↦ ?_
  rw [← heq, hinv.pids.procFind_pid hq] at hpid
  cases hpid

/-! ### Ticks alone -/

/-- The machine after so many more timer interrupts. -/
def UserMachine.ticked (m : UserMachine) (n : ℕ) : UserMachine :=
  { m with kernel := (fun k ↦ (timerInterrupt k).1)^[n] m.kernel }

/-- Ticks go on for as long as no process is inside a call. -/
theorem userTicks (hrun : (userSystem entryPoints widen idle).Run events m) (n : ℕ)
    (huser : ∀ i < n, ∀ p, (m.ticked i).kernel.currentProc = some p → m.activity p = .user) :
    (userSystem entryPoints widen idle).Path m (List.replicate n .timer) (m.ticked n) := by
  induction n with
  | zero => exact TransitionSystem.Path.refl m
  | succ n ih =>
    have hbefore := ih fun i hi ↦ huser i (hi.trans (Nat.lt_succ_self n))
    obtain ⟨current, hinv⟩ := SchedulerInvariant.of_userRun (hrun.append hbefore)
    rw [List.replicate_succ']
    refine hbefore.step ⟨current, hinv.current_eq,
      huser n (Nat.lt_succ_self n) current hinv.current_eq, ?_⟩
    rw [UserMachine.ticked, Function.iterate_succ_apply']
    rfl

/-- Idle and the shell, both in code of their own. -/
def twoUsers : UserMachine :=
  ⟨twoReady, fun _ ↦ .user, []⟩

theorem run_twoUsers (widen : Int32 → Word) (n : ℕ) :
    (userSystem ⟨1#64, 2#64⟩ widen 0).Run (List.replicate n .timer) (twoUsers.ticked n) := by
  have hstart : (userSystem ⟨1#64, 2#64⟩ widen 0).Run [] twoUsers :=
    TransitionSystem.Run.start ⟨⟨3#64, 0x400018#64, _, kernelMain_twoReady⟩, fun _ ↦ rfl, rfl⟩
  exact hstart.append (userTicks hstart n fun _ _ _ _ ↦ rfl)

/-- A call with its number, its first argument, two more and a length, from memory that counts. -/
def callOf (num a1 a2 a3 a4 : Word) : SystemCall :=
  ⟨num, a1, a2, a3, a4, 0#64, fun address ↦ address.setWidth 8⟩

/-- The shell runs after ten ticks, and sends itself three bytes. -/
theorem user_messages_fifo_shell : ∃ events m,
    (userSystem ⟨1#64, 2#64⟩ (fun n ↦ n.toBitVec.signExtend 64) 0).Run events m ∧
      userSentTo 2 events = [⟨2, 7#32, 3#32, [0#8, 1#8, 2#8]⟩] ∧
      userReceivedBy (m.kernel.procTable 1).pid events ++ queuedMessages m.kernel 1 =
        userSentTo (m.kernel.procTable 1).pid events := by
  have hcurrent : (twoUsers.ticked 10).kernel.currentProc = some 1 := by decide
  have hrun := (run_twoUsers (fun n ↦ n.toBitVec.signExtend 64) 10).step
    (step_called (callOf sysIpcSend 2#64 7#64 0x1000#64 3#64) hcurrent (by decide) rfl)
  refine ⟨_, _, hrun, by decide, (user_messages_fifo hrun fun event hevent ↦ ?_).1 1 (by decide)⟩
  rw [List.mem_append, List.mem_singleton] at hevent
  rcases hevent with hevent | rfl
  · rw [List.eq_of_mem_replicate hevent]
    trivial
  · exact fun _ _ ↦ by decide

end Colix.Proc
