import Colix.Proc.ProcessTable
import Colix.Proc.UserRuns

/-!
# Calls and their answers

A process has at most one call open, and an answer closes the call that it belongs to
(`CallsOpen`). What is left of a call that gave up the processor says which call it is: `RestOf`.
So every answer is the one its own call asks for, a receive is answered with the oldest message that
was sent and not received, and `SYS_EXIT` has no answer (`calls_answered`).
-/

set_option autoImplicit false
set_option relaxedAutoImplicit false

namespace Colix.Proc

open Foundation Ipc

/-! ### Identities -/

/-- A part of a call keeps pids and entries. -/
theorem SchedulerPart.identities {k : Kernel} {idle : ProcIndex} {entryPoints : EntryPoints}
    {handled : Handled} (hcurrent : CurrentInUse k)
    (hpart : SchedulerPart entryPoints idle k handled) : IdentitiesKept k handled.kernel := by
  rcases hpart with hsame | ⟨event, hevent, hstep⟩
  · rw [hsame]
    exact IdentitiesKept.refl hcurrent
  · cases hevent with
    | exit code =>
      rw [← hstep.2]
      exact IdentitiesKept.of_kept (processesKept_procExit hcurrent code)
    | yield =>
      rw [← hstep.2]
      exact IdentitiesKept.of_kept (processesKept_schedule hcurrent)
    | sleep ms =>
      rw [← hstep.2]
      exact IdentitiesKept.of_kept (processesKept_procSleep hcurrent ms)
    | send dst type data len =>
      rw [← hstep.2]
      exact identitiesKept_ipcSend hcurrent dst type data len
    | recv out =>
      rw [← hstep.2]
      exact identitiesKept_ipcRecv hcurrent out

/-! ### Open calls -/

/-- The call that a process is inside of. -/
def Activity.call : Activity → Option SystemCall
  | .user => none
  | .inside call _ => some call

/-- The open call of `pid` after a step: a call opens, an answer closes it. -/
def UserEvent.opened (pid : Pid) (before : Option SystemCall) : UserEvent → Option SystemCall
  | .called caller call answer =>
    if caller = pid then if answer.isSome then none else some call else before
  | .resumed caller call answer =>
    if caller = pid then if answer.isSome then none else some call else before
  | _ => before

/-- The call of `pid` that has no answer yet. -/
def openCall (pid : Pid) (events : List UserEvent) : Option SystemCall :=
  events.foldl (UserEvent.opened pid) none

theorem openCall_append (pid : Pid) (events : List UserEvent) (event : UserEvent) :
    openCall pid (events ++ [event]) = event.opened pid (openCall pid events) := by
  rw [openCall, List.foldl_append]
  rfl

/-- The open calls are those that the processes are inside of. -/
structure CallsOpen (events : List UserEvent) (m : UserMachine) : Prop where
  unused_user : ∀ q, (m.kernel.procTable q).state = .unused → m.activity q = .user
  opened : ∀ q, (m.kernel.procTable q).state ≠ .unused →
    openCall (m.kernel.procTable q).pid events = (m.activity q).call
  silent : ∀ pid, (∀ q, (m.kernel.procTable q).state ≠ .unused →
    (m.kernel.procTable q).pid ≠ pid) → openCall pid events = none

section CallsOpen

variable {m next : UserMachine} {idle p : ProcIndex} {entryPoints : EntryPoints}
  {widen : Int32 → Word} {event : UserEvent} {events : List UserEvent} {call : SystemCall}

/-- A step that neither calls nor answers. -/
theorem CallsOpen.quiet (hopen : CallsOpen events m) (hquiet : ∀ pid before,
    event.opened pid before = before) {kernel : Kernel}
    (hkept : IdentitiesKept m.kernel kernel) :
    CallsOpen (events ++ [event]) { m with kernel := kernel } := by
  refine ⟨fun q hq ↦ hopen.unused_user q ((hkept.unused_iff q).mp hq), fun q hq ↦ ?_,
    fun pid hpid ↦ ?_⟩
  · rw [openCall_append, hquiet, hkept.pid_eq]
    exact hopen.opened q ((hkept.unused_iff q).not.mp hq)
  · rw [openCall_append, hquiet]
    refine hopen.silent pid fun q hq ↦ ?_
    rw [← hkept.pid_eq]
    exact hpid q ((hkept.unused_iff q).not.mpr hq)

/-- A new process has no call open. -/
theorem CallsOpen.added (hopen : CallsOpen events m) (hpids : PidInvariant m.kernel)
    {kernel : Kernel} (hadded : ProcessAdded m.kernel kernel p)
    (hquiet : ∀ pid before, event.opened pid before = before) :
    CallsOpen (events ++ [event]) { m with kernel := kernel } := by
  refine ⟨fun q hq ↦ ?_, fun q hq ↦ ?_, fun pid hpid ↦ ?_⟩
  · by_cases heq : q = p
    · rw [heq]
      exact hopen.unused_user p hadded.unused_before
    · refine hopen.unused_user q ?_
      rw [← hadded.procTable_of_ne q heq]
      exact hq
  · rw [openCall_append, hquiet]
    by_cases heq : q = p
    · rw [heq, hadded.pid_added, hopen.unused_user p hadded.unused_before]
      exact hopen.silent _ fun i hi ↦ hpids.pid_ne_nextPid hi
    · rw [hadded.procTable_of_ne q heq] at hq ⊢
      exact hopen.opened q hq
  · rw [openCall_append, hquiet]
    refine hopen.silent pid fun q hq ↦ ?_
    have hne : q ≠ p := fun heq ↦ hq (heq ▸ hadded.unused_before)
    have hother := hpid q
    rw [hadded.procTable_of_ne q hne] at hother
    exact hother hq

/-- A part of a call opens it or closes it. -/
theorem CallsOpen.handled (hopen : CallsOpen events m) (hpids : PidInvariant m.kernel)
    (hused : (m.kernel.procTable p).state ≠ .unused) {handled : Handled}
    (hkept : IdentitiesKept m.kernel handled.kernel)
    (hevent : ∀ pid before, event.opened pid before =
      if (m.kernel.procTable p).pid = pid then (handled.outcome.activity call).call else before) :
    CallsOpen (events ++ [event]) (m.handle p call handled) := by
  refine ⟨fun q hq ↦ ?_, fun q hq ↦ ?_, fun pid hpid ↦ ?_⟩
  · have hne : q ≠ p := by
      rintro rfl
      exact hused ((hkept.unused_iff q).mp hq)
    rw [UserMachine.handle_activity_of_ne m p call handled hne]
    exact hopen.unused_user q ((hkept.unused_iff q).mp hq)
  · replace hq := (hkept.unused_iff q).not.mp hq
    rw [openCall_append, hevent, UserMachine.handle_kernel, hkept.pid_eq]
    by_cases heq : q = p
    · rw [heq, if_pos rfl, UserMachine.handle_activity_self]
    · rw [if_neg fun hsame ↦ heq (hpids.pid_inj p q hused hq hsame).symm,
        UserMachine.handle_activity_of_ne m p call handled heq]
      exact hopen.opened q hq
  · have hbefore : ∀ q, (m.kernel.procTable q).state ≠ .unused →
        (m.kernel.procTable q).pid ≠ pid := by
      intro q hq
      rw [← hkept.pid_eq]
      exact hpid q ((hkept.unused_iff q).not.mpr hq)
    rw [openCall_append, hevent, if_neg (hbefore p hused)]
    exact hopen.silent pid hbefore

theorem CallOutcome.call_activity (outcome : CallOutcome) (call : SystemCall) :
    (outcome.activity call).call = if outcome.answer.isSome then none else some call := by
  cases outcome <;> rfl

/-- A process other than idle that is current. -/
theorem currentProc_ne_idle (hcurrent : m.kernel.currentProc = some p) (hne : p ≠ idle) :
    m.kernel.currentProc ≠ some idle := fun hidle ↦
  hne (Option.some.inj (hcurrent.symm.trans hidle))

/-- The open calls along a run. -/
theorem CallsOpen.of_run (hrun : (userSystem entryPoints widen idle).Run events m) :
    CallsOpen events m := by
  obtain ⟨-, hopen⟩ : (userSystem entryPoints widen idle).Run events m ∧ CallsOpen events m := by
    refine hrun.history_invariant (motive := fun events m ↦
      (userSystem entryPoints widen idle).Run events m ∧ CallsOpen events m) ?_ ?_
    · rintro m ⟨hstart, huser, hprinted⟩
      refine ⟨TransitionSystem.Run.start ⟨hstart, huser, hprinted⟩, fun q _ ↦ huser q,
        fun q _ ↦ ?_, fun _ _ ↦ rfl⟩
      rw [huser]
      rfl
    · rintro events m event next ⟨hbefore, hopen⟩ hstep
      refine ⟨hbefore.step hstep, ?_⟩
      have hpids := pidInvariant_of_userRun hbefore
      obtain ⟨p, hcurrent, hstep⟩ := hstep
      have hused := hpids.current p hcurrent
      cases event with
      | timer =>
        obtain ⟨-, rfl⟩ := hstep
        exact hopen.quiet (fun _ _ ↦ rfl)
          (IdentitiesKept.of_kept (processesKept_timerInterrupt hpids.current))
      | create pages entry =>
        obtain ⟨-, -, rfl⟩ := hstep
        rcases (procCreateElf_creates entryPoints pages entry m.kernel).added with
          hsame | ⟨q, hadded⟩
        · exact hopen.quiet (fun _ _ ↦ rfl) (hsame.symm ▸ IdentitiesKept.refl hpids.current)
        · exact hopen.added hpids hadded fun _ _ ↦ rfl
      | called caller call answer =>
        obtain ⟨hne, -, rfl, rfl, rfl⟩ := hstep
        have hpart :=
          syscallHandler_kernel entryPoints (currentProc_ne_idle hcurrent hne) widen call
        refine hopen.handled hpids hused (hpart.identities hpids.current) fun pid before ↦ ?_
        rw [CallOutcome.call_activity]
        rfl
      | resumed caller call answer =>
        obtain ⟨hne, rest, -, rfl, rfl, rfl⟩ := hstep
        have hpart := resumeCall_kernel entryPoints (currentProc_ne_idle hcurrent hne) call rest
        refine hopen.handled hpids hused (hpart.identities hpids.current) fun pid before ↦ ?_
        rw [CallOutcome.call_activity]
        rfl
  exact hopen

end CallsOpen

/-! ### What is left of a call -/

/-- The rest that a process has says which call it is inside of. -/
inductive RestOf (k : Kernel) (p : ProcIndex) (call : SystemCall) : Rest → Prop
  | exit (hnum : call.num = sysExit) (hexited : Exited k p call.code) :
      RestOf k p call (.value 0#64)
  | schedule (hnum : call.num = sysYield ∨ call.num = sysSleep) : RestOf k p call (.value 0#64)
  | receive (hnum : call.num = sysIpcRecv) (hout : call.out ≠ none) : RestOf k p call .receive

section RestOf

variable {k next : Kernel} {m : UserMachine} {idle current p : ProcIndex}
  {entryPoints : EntryPoints} {widen : Int32 → Word} {events : List UserEvent} {call : SystemCall}
  {rest : Rest}

theorem RestOf.mono (hrest : RestOf k p call rest)
    (hexited : ∀ i code, Exited k i code → Exited next i code) : RestOf next p call rest := by
  cases hrest with
  | exit hnum hbefore => exact .exit hnum (hexited p call.code hbefore)
  | schedule hnum => exact .schedule hnum
  | receive hnum hout => exact .receive hnum hout

theorem left_afterSchedule {result : Kernel × Option ContextSwitch} {printed : List Byte}
    (hleft : (afterSchedule result printed).outcome = .left rest) : rest = .value 0#64 := by
  rw [afterSchedule] at hleft
  cases hswitch : result.2 with
  | some switch =>
    rw [hswitch] at hleft
    cases hleft
    rfl
  | none =>
    rw [hswitch] at hleft
    cases hleft

/-- A receive that has not returned has a buffer. -/
theorem restOf_receivePass (hinv : SchedulerInvariant idle k current)
    (hnum : call.num = sysIpcRecv) (hleft : (receivePass k call).outcome = .left rest) :
    RestOf next p call rest := by
  rw [receivePass] at hleft
  cases hout : call.out with
  | none =>
    have hcurrent := hinv.current_eq
    simp [ipcRecv, hcurrent, hout] at hleft
  | some buffer =>
    cases hpass : ipcRecv k call.out with
    | returned result message after =>
      rw [hpass] at hleft
      cases hleft
    | slept after switch =>
      rw [hpass] at hleft
      cases hleft
      exact .receive hnum (by rw [hout]; exact Option.some_ne_none _)

/-- The first part of a call. -/
theorem restOf_called (hinv : SchedulerInvariant idle k current) (hne : current ≠ idle)
    (hleft : (syscallHandler widen k call).outcome = .left rest) :
    RestOf (syscallHandler widen k call).kernel current call rest := by
  rw [syscallHandler] at hleft ⊢
  split_ifs at hleft ⊢ with hexit hwrite hgetpid hgetppid hyield hsleep hsend hrecv
  · rw [left_afterSchedule hleft, afterSchedule_kernel]
    exact .exit hexit (hinv.correct.exit_switches current call.code hinv.current_eq hne).1
  · rw [sysWriteHandler] at hleft
    split_ifs at hleft
  · rw [left_afterSchedule hleft]
    exact .schedule (Or.inl hyield)
  · rw [left_afterSchedule hleft]
    exact .schedule (Or.inr hsleep)
  · exact restOf_receivePass hinv hrecv hleft

/-- The rest of a pending call along a run. -/
theorem restOf_of_run (hrun : (userSystem entryPoints widen idle).Run events m)
    (hinside : m.activity p = .inside call rest) : RestOf m.kernel p call rest := by
  obtain ⟨-, hrests⟩ : (userSystem entryPoints widen idle).Run events m ∧
      ∀ p call rest, m.activity p = .inside call rest → RestOf m.kernel p call rest := by
    refine hrun.history_invariant (motive := fun events m ↦
      (userSystem entryPoints widen idle).Run events m ∧
        ∀ p call rest, m.activity p = .inside call rest → RestOf m.kernel p call rest) ?_ ?_
    · rintro m ⟨hstart, huser, hprinted⟩
      refine ⟨TransitionSystem.Run.start ⟨hstart, huser, hprinted⟩, fun p call rest hinside ↦ ?_⟩
      rw [huser] at hinside
      cases hinside
    · rintro events m event next ⟨hbefore, hrests⟩ hstep
      refine ⟨hbefore.step hstep, ?_⟩
      obtain ⟨current, hinv⟩ := SchedulerInvariant.of_userRun hbefore
      obtain ⟨schedulerEvents, hpath, -⟩ := exists_schedulerPath hstep
      have hexited : ∀ i code, Exited m.kernel i code → Exited next.kernel i code :=
        fun i code h ↦ (hinv.exited_path h hpath).1
      -- the processes that the step does not handle
      have hothers : ∀ q call rest, next.activity q = m.activity q →
          next.activity q = .inside call rest → RestOf next.kernel q call rest := by
        intro q call rest hsame hinside
        rw [hsame] at hinside
        exact (hrests q call rest hinside).mono hexited
      obtain ⟨p, hcurrent, hstep⟩ := hstep
      obtain rfl : current = p := Option.some.inj (hinv.current_eq.symm.trans hcurrent)
      cases event with
      | timer =>
        obtain ⟨-, rfl⟩ := hstep
        exact fun q call rest ↦ hothers q call rest rfl
      | create pages entry =>
        obtain ⟨-, -, rfl⟩ := hstep
        exact fun q call rest ↦ hothers q call rest rfl
      | called caller call answer =>
        obtain ⟨hne, -, -, -, rfl⟩ := hstep
        intro q other rest hinside
        by_cases heq : q = current
        · subst heq
          rw [UserMachine.handle_activity_self] at hinside
          cases hleft : (syscallHandler widen m.kernel call).outcome with
          | answered answer =>
            rw [hleft] at hinside
            cases hinside
          | left rest =>
            rw [hleft] at hinside
            cases hinside
            exact restOf_called hinv hne hleft
        · exact hothers q other rest (UserMachine.handle_activity_of_ne _ _ _ _ heq) hinside
      | resumed caller call answer =>
        obtain ⟨hne, rest, hinside, -, -, rfl⟩ := hstep
        intro q other after hafter
        by_cases heq : q = current
        · subst heq
          rw [UserMachine.handle_activity_self] at hafter
          have hrest := hrests q call rest hinside
          cases hrest with
          | exit hnum hbefore => cases hafter
          | schedule hnum => cases hafter
          | receive hnum hout =>
            cases hleft : (receivePass m.kernel call).outcome with
            | answered answer =>
              rw [resumeCall, hleft] at hafter
              cases hafter
            | left rest =>
              rw [resumeCall, hleft] at hafter
              cases hafter
              exact restOf_receivePass hinv hnum hleft
        · exact hothers q other after (UserMachine.handle_activity_of_ne _ _ _ _ heq) hafter
  exact hrests p call rest hinside

end RestOf

/-! ### Answers -/

/-- What a send returns: that there is no such process, that the length is out of range, that the
messages that wait fill the pool, or 0. -/
def sendResult (k : Kernel) (dst : Pid) (len : Word32) : ℤ :=
  if procFind k dst = none then -esrch
  else if 256 < len.toNat then -einval
  else if ∑ q, (queuedMessages k q).length = 128 then -enomem
  else 0

/-- The numbers that have a handler. -/
def handledNumbers : List Word :=
  [sysExit, sysWrite, sysGetpid, sysGetppid, sysYield, sysSleep, sysIpcSend, sysIpcRecv]

/-- The answer that a call of the process asks for, in a machine with a history. There is none for
`SYS_EXIT`. -/
inductive AnswerOf (events : List UserEvent) (m : UserMachine) (p : ProcIndex) (call : SystemCall) :
    Answer → Prop
  | write (hnum : call.num = sysWrite) (hopen : call.code = 1 ∨ call.code = 2) :
      AnswerOf events m p call ⟨call.a3, none⟩
  | badFile (hnum : call.num = sysWrite) (hclosed : ¬ (call.code = 1 ∨ call.code = 2)) :
      AnswerOf events m p call ⟨returnValue (-ebadf), none⟩
  | getpid (hnum : call.num = sysGetpid) :
      AnswerOf events m p call ⟨returnValue (m.kernel.procTable p).pid.toInt, none⟩
  | getppid (hnum : call.num = sysGetppid) :
      AnswerOf events m p call ⟨returnValue (m.kernel.procTable p).ppid.toInt, none⟩
  | schedule (hnum : call.num = sysYield ∨ call.num = sysSleep) :
      AnswerOf events m p call ⟨0#64, none⟩
  | send (hnum : call.num = sysIpcSend) :
      AnswerOf events m p call ⟨returnValue (sendResult m.kernel call.dst call.len), none⟩
  | noBuffer (hnum : call.num = sysIpcRecv) (hnull : call.out = none) :
      AnswerOf events m p call ⟨returnValue (-einval), none⟩
  | receive (hnum : call.num = sysIpcRecv) (message : IpcMessage)
      (holdest : ((userSentTo (m.kernel.procTable p).pid events).drop
        (userReceivedBy (m.kernel.procTable p).pid events).length).head? =
          some (heldMessage message)) :
      AnswerOf events m p call ⟨0#64, some message⟩
  | unknown (hnum : call.num ∉ handledNumbers) :
      AnswerOf events m p call ⟨returnValue (-enosys), none⟩

section Answers

variable {k next : Kernel} {m : UserMachine} {idle current p : ProcIndex}
  {entryPoints : EntryPoints} {widen : Int32 → Word} {events : List UserEvent} {call : SystemCall}
  {rest : Rest}

theorem ipcSend_eq_sendResult {ipcEvents : List IpcEvent} (hinv : IpcInvariant ipcEvents k)
    (dst : Pid) (type : Word32) (data : Option (ℕ → Byte)) (len : Word32) :
    (ipcSend k dst type data len).1 = sendResult k dst len := by
  have hfull : (∀ m, k.msgUsed m = true) ↔ ∑ q, (queuedMessages k q).length = 128 := by
    rw [all_used_iff hinv]
    simp only [queuedMessages, List.length_map]
  rw [sendResult]
  rcases ipcSend_cases k dst type data len with ⟨hnone, hreturn⟩ |
    ⟨target, htarget, hcases⟩
  · rw [hreturn, if_pos hnone]
  · rw [if_neg (by rw [htarget]; exact Option.some_ne_none _)]
    rcases hcases with ⟨hlong, hreturn⟩ | ⟨hlen, hall, hreturn⟩ | ⟨hlen, slot, hunused, hreturn⟩
    · rw [hreturn, if_pos hlong]
    · rw [hreturn, if_neg (by omega), if_pos (hfull.mp hall)]
    · rw [hreturn, if_neg (by omega), if_neg]
      intro hsum
      rw [hfull.mpr hsum slot] at hunused
      cases hunused

/-- The message that an answer brings is the oldest that was sent and not received. -/
theorem oldest_received {event : UserEvent} {next : UserMachine} {message : Message}
    (hrun : (userSystem entryPoints widen idle).Run events m)
    (hstep : (userSystem entryPoints widen idle).step m event next)
    (hdata : ∀ event ∈ events, event.GivesData) (hgives : event.GivesData)
    (hused : (m.kernel.procTable p).state ≠ .unused)
    (hkept : IdentitiesKept m.kernel next.kernel)
    (hsent : event.sentTo (m.kernel.procTable p).pid = none)
    (hreceived : event.receivedBy (m.kernel.procTable p).pid = some message) :
    ((userSentTo (m.kernel.procTable p).pid events).drop
      (userReceivedBy (m.kernel.procTable p).pid events).length).head? = some message := by
  have hdata : ∀ other ∈ events ++ [event], other.GivesData := by
    rw [List.forall_mem_append, List.forall_mem_singleton]
    exact ⟨hdata, hgives⟩
  have hfifo :=
    received_append_queued (hrun.step hstep) hdata ((hkept.unused_iff p).not.mpr hused)
  rw [hkept.pid_eq, userSentTo, userReceivedBy, List.filterMap_append, List.filterMap_append,
    List.filterMap_cons_none hsent, List.filterMap_cons_some hreceived, List.filterMap_nil,
    List.filterMap_nil, List.append_nil, List.append_assoc] at hfifo
  rw [userSentTo, ← hfifo, userReceivedBy, List.drop_left]
  rfl

theorem answerOf_receivePass {answer : Answer} (hcurrent : m.kernel.currentProc = some p)
    (hnum : call.num = sysIpcRecv)
    (hanswer : (receivePass m.kernel call).outcome.answer = some answer)
    (holdest : ∀ message, answer.received = some message →
      ((userSentTo (m.kernel.procTable p).pid events).drop
        (userReceivedBy (m.kernel.procTable p).pid events).length).head? =
          some (heldMessage message)) :
    AnswerOf events m p call answer := by
  rw [receivePass] at hanswer
  cases hpass : ipcRecv m.kernel call.out with
  | slept after switch =>
    rw [hpass] at hanswer
    cases hanswer
  | returned result message after =>
    rw [hpass] at hanswer
    cases hanswer
    rcases ipcRecv_returned_cases hpass with ⟨rfl, -⟩ | ⟨q, slot, buffer, -, -, -, rfl, rfl, -⟩
    · rw [ipcRecv_null hcurrent hpass]
      refine .noBuffer hnum ?_
      cases hout : call.out with
      | none => rfl
      | some buffer =>
        cases hhead : (m.kernel.procTable p).msgQueue with
        | none => simp [ipcRecv, hcurrent, hout, hhead] at hpass
        | some slot => simp [ipcRecv, hcurrent, hout, hhead] at hpass
    · exact .receive hnum _ (holdest _ rfl)

/-- What the first part of a call answers. -/
theorem answerOf_called {answer : Answer} {ipcEvents : List IpcEvent}
    (hinv : IpcInvariant ipcEvents m.kernel)
    (hscheduler : SchedulerInvariant idle m.kernel p) (hne : p ≠ idle)
    (hanswer : (syscallHandler widen m.kernel call).outcome.answer = some answer)
    (holdest : call.num = sysIpcRecv → ∀ message, answer.received = some message →
      ((userSentTo (m.kernel.procTable p).pid events).drop
        (userReceivedBy (m.kernel.procTable p).pid events).length).head? =
          some (heldMessage message)) :
    AnswerOf events m p call answer := by
  have hcurrent := hscheduler.current_eq
  rw [syscallHandler] at hanswer
  split_ifs at hanswer with hexit hwrite hgetpid hgetppid hyield hsleep hsend hrecv
  · -- another process runs on
    obtain ⟨-, q, -, hswitch⟩ :=
      hscheduler.correct.exit_switches p call.code hcurrent hne
    rw [afterSchedule, hswitch] at hanswer
    cases hanswer
  · rw [sysWriteHandler] at hanswer
    split_ifs at hanswer with hopen
    · cases hanswer
      exact .write hwrite hopen
    · cases hanswer
      exact .badFile hwrite hopen
  · cases hanswer
    rw [Kernel.currentPid, hcurrent]
    exact .getpid hgetpid
  · cases hanswer
    rw [currentPpid, hcurrent]
    exact .getppid hgetppid
  · rw [answer_afterSchedule hanswer]
    exact .schedule (Or.inl hyield)
  · rw [answer_afterSchedule hanswer]
    exact .schedule (Or.inr hsleep)
  · have hsent : answer = ⟨returnValue (sendResult m.kernel call.dst call.len), none⟩ := by
      rw [← ipcSend_eq_sendResult hinv call.dst call.type call.data call.len]
      exact (Option.some.inj hanswer).symm
    rw [hsent]
    exact .send hsend
  · exact answerOf_receivePass hcurrent hrecv hanswer (holdest hrecv)
  · cases hanswer
    refine .unknown ?_
    simp only [handledNumbers, List.mem_cons, List.not_mem_nil, or_false, not_or]
    exact ⟨hexit, hwrite, hgetpid, hgetppid, hyield, hsleep, hsend, hrecv⟩

/-- A process that goes on with a call has not exited. -/
theorem RestOf.num_ne_exit (hrest : RestOf k current call rest)
    (hscheduler : SchedulerInvariant idle k current) : call.num ≠ sysExit := by
  cases hrest with
  | exit hnum hexited =>
    have hrunning := (hscheduler.running_iff current).mpr rfl
    rw [hexited.1] at hrunning
    cases hrunning
  | schedule hnum =>
    rcases hnum with hnum | hnum
    · rw [hnum]
      decide
    · rw [hnum]
      decide
  | receive hnum hout =>
    rw [hnum]
    decide

/-- What a later part of a call answers. -/
theorem answerOf_resumed {answer : Answer} (hscheduler : SchedulerInvariant idle m.kernel p)
    (hrest : RestOf m.kernel p call rest)
    (hanswer : (resumeCall m.kernel call rest).outcome.answer = some answer)
    (holdest : ∀ message, answer.received = some message →
      ((userSentTo (m.kernel.procTable p).pid events).drop
        (userReceivedBy (m.kernel.procTable p).pid events).length).head? =
          some (heldMessage message)) :
    AnswerOf events m p call answer := by
  cases hrest with
  | exit hnum hexited => exact absurd hnum ((RestOf.exit hnum hexited).num_ne_exit hscheduler)
  | schedule hnum =>
    cases hanswer
    exact .schedule hnum
  | receive hnum hout => exact answerOf_receivePass hscheduler.current_eq hnum hanswer holdest

/-- Calls and answers along every run: a process makes a call when it has none open, a call that is
gone on with is the open one, and an answer is the one that its call asks for. Receive buffers lie
apart from the kernel's data. -/
theorem calls_answered (hrun : (userSystem entryPoints widen idle).Run events m)
    (hdata : ∀ event ∈ events, event.GivesData) :
    (∀ caller call answer next,
      (userSystem entryPoints widen idle).step m (.called caller call answer) next →
        openCall caller events = none ∧ ∀ answered, answer = some answered →
          ∃ p, (m.kernel.procTable p).pid = caller ∧ AnswerOf events m p call answered) ∧
    ∀ caller call answer next,
      (userSystem entryPoints widen idle).step m (.resumed caller call answer) next →
        openCall caller events = some call ∧ call.num ≠ sysExit ∧
          ∀ answered, answer = some answered →
            ∃ p, (m.kernel.procTable p).pid = caller ∧ AnswerOf events m p call answered := by
  have hopen := CallsOpen.of_run hrun
  have hpids := pidInvariant_of_userRun hrun
  obtain ⟨current, hscheduler⟩ := SchedulerInvariant.of_userRun hrun
  obtain ⟨ipcEvents, hinv⟩ := queuesInOrder_of_userRun hrun
  constructor
  · intro caller call answer next hstep
    have hcalled := hstep
    obtain ⟨p, hcurrent, hne, huser, rfl, rfl, rfl⟩ := hstep
    obtain rfl : current = p := Option.some.inj (hscheduler.current_eq.symm.trans hcurrent)
    have hused := hpids.current current hcurrent
    have hkept : IdentitiesKept m.kernel (syscallHandler widen m.kernel call).kernel :=
      (syscallHandler_kernel entryPoints (currentProc_ne_idle hcurrent hne) widen
        call).identities hpids.current
    refine ⟨?_, fun answered hanswered ↦ ⟨current, rfl, ?_⟩⟩
    · rw [hopen.opened current hused, huser]
      rfl
    · refine answerOf_called hinv hscheduler hne hanswered fun hrecv message hmessage ↦ ?_
      have hnum : call.num ≠ sysIpcSend := by rw [hrecv]; decide
      refine oldest_received hrun hcalled hdata (fun hsend ↦ absurd hsend hnum) hused hkept
        (sentTo_called hnum _ _) ?_
      rw [UserEvent.receivedBy, hanswered, Option.bind_some, if_pos rfl, hmessage, Option.map_some]
  · intro caller call answer next hstep
    have hresumed := hstep
    obtain ⟨p, hcurrent, hne, rest, hinside, rfl, rfl, rfl⟩ := hstep
    obtain rfl : current = p := Option.some.inj (hscheduler.current_eq.symm.trans hcurrent)
    have hused := hpids.current current hcurrent
    have hrest := restOf_of_run hrun hinside
    have hkept : IdentitiesKept m.kernel (resumeCall m.kernel call rest).kernel :=
      (resumeCall_kernel entryPoints (currentProc_ne_idle hcurrent hne) call rest).identities
        hpids.current
    refine ⟨?_, hrest.num_ne_exit hscheduler, fun answered hanswered ↦ ⟨current, rfl, ?_⟩⟩
    · rw [hopen.opened current hused, hinside]
      rfl
    · refine answerOf_resumed hscheduler hrest hanswered fun message hmessage ↦ ?_
      refine oldest_received hrun hresumed hdata trivial hused hkept rfl ?_
      rw [UserEvent.receivedBy, hanswered, Option.bind_some, if_pos rfl, hmessage, Option.map_some]

/-- The shell asks for its pid. -/
theorem calls_answered_getpid : ∃ p, ((twoUsers.ticked 10).kernel.procTable p).pid = 2 ∧
    AnswerOf (List.replicate 10 .timer) (twoUsers.ticked 10) p
      (callOf sysGetpid 0#64 0#64 0#64 0#64) ⟨2#64, none⟩ := by
  have hcurrent : (twoUsers.ticked 10).kernel.currentProc = some 1 := by decide
  have hpid : ((twoUsers.ticked 10).kernel.procTable 1).pid = 2 := by decide
  have hrun := run_twoUsers (fun n ↦ n.toBitVec.signExtend 64) 10
  have hdata : ∀ event ∈ List.replicate 10 UserEvent.timer, event.GivesData := fun event hevent ↦ by
    rw [List.eq_of_mem_replicate hevent]
    trivial
  have hvalue : returnValue (twoUsers.ticked 10).kernel.currentPid.toInt = 2#64 := by decide
  obtain ⟨next, hstep⟩ : ∃ next, (userSystem ⟨1#64, 2#64⟩
      (fun n ↦ n.toBitVec.signExtend 64) 0).step (twoUsers.ticked 10)
        (.called 2 (callOf sysGetpid 0#64 0#64 0#64 0#64)
          (some ⟨returnValue (twoUsers.ticked 10).kernel.currentPid.toInt, none⟩)) next := by
    rw [← hpid]
    exact ⟨_, step_called (callOf sysGetpid 0#64 0#64 0#64 0#64) hcurrent (by decide) rfl⟩
  rw [hvalue] at hstep
  exact ((calls_answered hrun hdata).1 _ _ _ _ hstep).2 _ rfl

end Answers

end Colix.Proc
