import Colix.Ipc.IpcCalls
import Colix.Proc.ResponseTime

/-!
# Delivery in time

Only the receiver takes messages out of its queue, so what is queued for a process stays at the
front of its queue until the process runs. A send that succeeds leaves a process that waits READY,
and a READY process runs within 630 ticks: then the next pass of its `ipc_recv` returns the oldest
message (`send_delivered`).
-/

set_option autoImplicit false
set_option relaxedAutoImplicit false

namespace Colix.Ipc

open Foundation Proc

/-- The event as a call of its caller. -/
def schedulerCall : SchedulerEvent → IpcCall
  | .call call => .call call
  | .send dst type data len => .send dst type data len
  | .recv out => .recv out

section Queue

variable {k next : Kernel} {idle current p : ProcIndex} {entryPoints : EntryPoints}
  {event : SchedulerEvent} {events : List SchedulerEvent} {messages : List Message}

theorem perform_schedulerCall (hstep : (schedulerSystem entryPoints idle).step k event next) :
    (schedulerCall event).perform entryPoints k = next := by
  cases event with
  | call call => exact hstep.2
  | send dst type data len => exact hstep.2
  | recv out => exact hstep.2

/-- The queues are in order along the runs of the scheduler. -/
theorem QueuesInOrder.of_schedulerRun (hrun : (schedulerSystem entryPoints idle).Run events k) :
    QueuesInOrder k := by
  refine hrun.invariant (motive := QueuesInOrder) ?_ ?_
  · rintro state ⟨procIdle, idleStack, shell, hmain⟩
    have hstart : (ipcSystem entryPoints).start state := ⟨procIdle, idleStack, shell, idle, hmain⟩
    exact ⟨[], IpcInvariant.start hstart⟩
  · intro state event next horder hstep
    rw [← perform_schedulerCall hstep]
    exact horder.perform entryPoints _

theorem queuedMessages_kept (hkept : ProcessesKept k next) (p : ProcIndex) :
    queuedMessages next p = queuedMessages k p :=
  (queueSlots_congr hkept.msgPool_eq (msgQueue_of_kept hkept p)).2

/-- A send appends to the queue of its target, whatever its data. -/
theorem queuedMessages_prefix_ipcSend (horder : QueuesInOrder k) (dst : Pid) (type : Word32)
    (data : Option (ℕ → Byte)) (len : Word32) (p : ProcIndex) :
    queuedMessages k p <+: queuedMessages (ipcSend k dst type data len).2 p := by
  rcases ipcSend_state_cases k dst type data len with ⟨-, hsame⟩ |
    ⟨target, m, htarget, hlen, hunused, hqueued⟩
  · rw [hsame]
  · obtain ⟨events, hinv⟩ := horder
    obtain ⟨src, hsrc⟩ : ∃ src, queuedState k target m type data len =
        queuedState k target m type (some src) len := by
      cases data with
      | none => exact ⟨_, queuedState_none k target m type len⟩
      | some src => exact ⟨src, rfl⟩
    obtain ⟨_, hinvQueued⟩ := QueuesInOrder.queued ⟨events, hinv⟩ htarget hunused type data hlen
    rw [hqueued, queuedMessages_kept (processesKept_procWakeup hinvQueued.pids.current target),
      hsrc, queuedMessages_queuedState target type hinv hunused hlen
        (fun _ ↦ Option.some_ne_none src)]
    split_ifs
    · exact List.prefix_append ..
    · exact List.prefix_rfl

/-- A receive takes nothing out of the queues of others. -/
theorem queuedMessages_ipcRecv (horder : QueuesInOrder k) (hcurrent : k.currentProc = some current)
    (hne : p ≠ current) (out : Option IpcMessage) :
    queuedMessages (ipcRecv k out).kernel p = queuedMessages k p := by
  obtain ⟨events, hinv⟩ := horder
  cases hpass : ipcRecv k out with
  | returned result message after =>
    rcases ipcRecv_returned_cases hpass with ⟨-, rfl⟩ | ⟨q, m, buffer, hq, hhead, -, -, -, rfl⟩
    · rfl
    · obtain rfl : q = current := Option.some.inj (hq.symm.trans hcurrent)
      obtain ⟨rest, hqueue⟩ := exists_queueSlots_cons hinv hhead
      have hslots := (kernelQueues_dequeue buffer hinv hqueue).eq_queueSlots
      rw [RecvPass.kernel, queuedMessages, hslots, Function.update_of_ne hne,
        (dequeue_frame k q m buffer).1, queuedMessages]
  | slept after switch =>
    have hkept := processesKept_procSleep hinv.pids.current 10#64
    rw [ipcRecv_slept hpass] at hkept
    exact queuedMessages_kept hkept p

/-- While a process does not run, what is queued for it stays at the front of its queue. -/
theorem queuedMessages_prefix_step (horder : QueuesInOrder k)
    (hinv : SchedulerInvariant idle k current) (hne : p ≠ current)
    (hused : (k.procTable p).state ≠ .unused)
    (hstep : (schedulerSystem entryPoints idle).step k event next) :
    queuedMessages k p <+: queuedMessages next p := by
  cases event with
  | call call =>
    obtain ⟨-, rfl⟩ := hstep
    obtain ⟨events, hipc⟩ := horder
    rcases call.perform_cases hipc.pids.current entryPoints with hkept | ⟨q, hadded⟩
    · rw [queuedMessages_kept hkept]
    · have hother : p ≠ q := fun heq ↦ hused (heq ▸ hadded.unused_before)
      rw [(queueSlots_congr hadded.msgPool_eq
        (congrArg Process.msgQueue (hadded.procTable_of_ne p hother))).2]
  | send dst type data len =>
    obtain ⟨-, rfl⟩ := hstep
    exact queuedMessages_prefix_ipcSend horder dst type data len p
  | recv out =>
    obtain ⟨-, rfl⟩ := hstep
    rw [queuedMessages_ipcRecv horder hinv.current_eq hne out]

/-- A pass of `ipc_recv` by a process with a queue returns the first message of it. -/
theorem ipcRecv_first (horder : QueuesInOrder k) (hruns : Runs p k) {message : Message}
    (hfirst : (queuedMessages k p).head? = some message) (out : IpcMessage) :
    ∃ received after, ipcRecv k (some out) = .returned 0 (some received) after ∧
      heldMessage received = message := by
  obtain ⟨events, hinv⟩ := horder
  rw [queuedMessages, List.head?_map, Option.map_eq_some_iff] at hfirst
  obtain ⟨m, hm, rfl⟩ := hfirst
  have hhead : (k.procTable p).msgQueue = some m :=
    ((hinv.queues.chain p).head_eq).trans hm
  refine ⟨(dequeue k p m out).1, (dequeue k p m out).2, ?_, ?_⟩
  · have hcurrent : k.currentProc = some p := hruns
    simp only [ipcRecv, hcurrent, hhead]
  · rw [dequeue_message, heldMessage_receivedMessage]

end Queue

/-! ### Waiting with messages -/

section Waiting

variable {k next : Kernel} {idle p : ProcIndex} {entryPoints : EntryPoints}
  {before events : List SchedulerEvent} {messages : List Message}

/-- The process waits for its turn, with these messages at the front of its queue. -/
structure WaitsWith (idle p : ProcIndex) (messages : List Message) (budget : ℕ) (k : Kernel) :
    Prop where
  waits : Waits idle p budget k
  order : QueuesInOrder k
  queued : messages <+: queuedMessages k p

/-- The process runs, with these messages at the front of its queue. -/
structure RunsWith (p : ProcIndex) (messages : List Message) (k : Kernel) : Prop where
  runs : Runs p k
  order : QueuesInOrder k
  queued : messages <+: queuedMessages k p

theorem spends_waitsWith : (schedulerSystem entryPoints idle).Spends (WaitsWith idle p messages)
    SchedulerEvent.isTick (RunsWith p messages) := by
  rintro budget k event next ⟨hwaits, horder, hqueued⟩ hstep
  have hnextOrder : QueuesInOrder next := by
    rw [← perform_schedulerCall hstep]
    exact horder.perform entryPoints _
  have hnextQueued : messages <+: queuedMessages next p := by
    obtain ⟨current, hinv, hwaiting⟩ := hwaits
    refine hqueued.trans ?_
    cases hwaiting with
    | turn hready hbudget =>
      refine queuedMessages_prefix_step horder hinv (hinv.ne_of_ready hready) ?_ hstep
      rw [hready]
      exact ProcState.noConfusion
    | sleep hasleep hbudget =>
      refine queuedMessages_prefix_step horder hinv (hasleep.ne_current hinv) ?_ hstep
      rw [hasleep.1]
      exact ProcState.noConfusion
  rcases spends_waits budget k event next hwaits hstep with hruns | ⟨rest, hrest, hspent⟩
  · exact Or.inl ⟨hruns, hnextOrder, hnextQueued⟩
  · exact Or.inr ⟨rest, ⟨hrest, hnextOrder, hnextQueued⟩, hspent⟩

/-- A send that succeeds leaves its target READY if it waited, with the message at the end of its
queue. -/
theorem ipcSend_ready {dst : Pid} {type : Word32} {data : Option (ℕ → Byte)} {len : Word32}
    (horder : QueuesInOrder k) (htarget : procFind k dst = some p)
    (hwaits : (k.procTable p).state = .ready ∨ (k.procTable p).state = .sleeping)
    (hdata : 0#32 < len → data ≠ none) (hsend : ipcSend k dst type data len = (0, next)) :
    (next.procTable p).state = .ready ∧
      queuedMessages next p = queuedMessages k p ++ [sentMessage k.currentPid type data len] := by
  have hzero : ∀ code : ℤ, code ≠ 0 → ipcSend k dst type data len ≠ (code, k) := by
    intro code hcode hfails
    rw [hsend, Prod.mk.injEq] at hfails
    exact hcode hfails.1.symm
  rcases ipcSend_cases k dst type data len with ⟨-, hreturn⟩ |
    ⟨target, hfind, ⟨-, hreturn⟩ | ⟨-, -, hreturn⟩ | ⟨hlen, m, hunused, hreturn⟩⟩
  · exact absurd hreturn (hzero _ (by decide))
  · exact absurd hreturn (hzero _ (by decide))
  · exact absurd hreturn (hzero _ (by decide))
  · obtain rfl : target = p := Option.some.inj (hfind.symm.trans htarget)
    rw [hsend, Prod.mk.injEq] at hreturn
    obtain ⟨-, rfl⟩ := hreturn
    obtain ⟨events, hinv⟩ := horder
    have hqueued := hinv.queued type htarget hunused hlen hdata
    refine ⟨?_, ?_⟩
    · rw [procWakeup]
      split_ifs with hsleeping
      · rw [Kernel.modify_procTable_self]
      · rw [state_queuedState] at hsleeping ⊢
        exact hwaits.resolve_right hsleeping
    · rw [queuedMessages_kept (processesKept_procWakeup hqueued.pids.current target),
        queuedMessages_queuedState target type hinv hunused hlen hdata, if_pos rfl]

/-- A send that succeeds to a READY or SLEEPING process: within 630 ticks the receiver runs, with
what was queued for it and then the message at the front of its queue, and a pass of its `ipc_recv`
returns the first of these at once. -/
theorem send_delivered {dst : Pid} {type : Word32} {data : Option (ℕ → Byte)} {len : Word32}
    {sent : Kernel} (hrun : (schedulerSystem entryPoints idle).Run before k)
    (hcaller : k.currentProc ≠ some idle) (htarget : procFind k dst = some p)
    (hwaits : (k.procTable p).state = .ready ∨ (k.procTable p).state = .sleeping)
    (hdata : 0#32 < len → data ≠ none) (hsend : ipcSend k dst type data len = (0, sent))
    (hpath : (schedulerSystem entryPoints idle).Path sent events next)
    (hticks : 10 * (procMax - 1) ≤ tickCount events) :
    (schedulerSystem entryPoints idle).Passes
      (fun s ↦ Runs p s ∧
        queuedMessages k p ++ [sentMessage k.currentPid type data len] <+: queuedMessages s p ∧
        ∀ out, ∃ received after, ipcRecv s (some out) = .returned 0 (some received) after ∧
          (queuedMessages k p ++ [sentMessage k.currentPid type data len]).head? =
            some (heldMessage received))
      sent events next := by
  have hstep : (schedulerSystem entryPoints idle).step k (.send dst type data len) sent :=
    ⟨hcaller, congrArg Prod.snd hsend⟩
  have hafter := hrun.step hstep
  obtain ⟨current, hinv⟩ := SchedulerInvariant.of_run hafter
  obtain ⟨hready, hqueued⟩ :=
    ipcSend_ready (QueuesInOrder.of_schedulerRun hrun) htarget hwaits hdata hsend
  have hwaiting : WaitsWith idle p (queuedMessages k p ++ [sentMessage k.currentPid type data len])
      (10 * (procMax - 1)) sent :=
    ⟨⟨current, hinv, .of_ready hready (hinv.ne_of_ready hready) le_rfl⟩,
      QueuesInOrder.of_schedulerRun hafter, hqueued ▸ List.prefix_rfl⟩
  refine (hpath.passes spends_waitsWith (fun s hzero ↦ not_waits_zero s hzero.waits) hwaiting
    hticks).mono fun s hs ↦ ⟨hs.runs, hs.queued, fun out ↦ ?_⟩
  -- the queue starts with a message, which is the first of those queued
  obtain ⟨message, hmessage⟩ : ∃ message,
      (queuedMessages k p ++ [sentMessage k.currentPid type data len]).head? = some message :=
    Option.isSome_iff_exists.mp (by simp)
  have hfirst : (queuedMessages s p).head? = some message := by
    obtain ⟨rest, hrest⟩ := hs.queued
    rw [← hrest, List.head?_append, hmessage, Option.some_or]
  obtain ⟨received, after, hrecv, hheld⟩ := ipcRecv_first hs.order hs.runs hfirst out
  exact ⟨received, after, hrecv, by rw [hmessage, hheld]⟩

/-- The shell sends idle a message without data. -/
theorem send_delivered_idle : ∃ k sent next : Kernel, ipcSend k 1 7#32 none 0#32 = (0, sent) ∧
    (schedulerSystem ⟨1#64, 2#64⟩ 0).Passes
      (fun s ↦ Runs 0 s ∧
        queuedMessages k 0 ++ [sentMessage k.currentPid 7#32 none 0#32] <+: queuedMessages s 0 ∧
        ∀ out, ∃ received after, ipcRecv s (some out) = .returned 0 (some received) after ∧
          (queuedMessages k 0 ++ [sentMessage k.currentPid 7#32 none 0#32]).head? =
            some (heldMessage received))
      sent (List.replicate 630 (.call .timer)) next := by
  obtain ⟨k, hk⟩ : ∃ k, k = (fun k ↦ (timerInterrupt k).1)^[10] twoReady := ⟨_, rfl⟩
  have hrun := run_twoReady.append (tickPath ⟨1#64, 2#64⟩ 0 twoReady 10)
  rw [← hk] at hrun
  have hcaller : k.currentProc ≠ some 0 := by
    rw [hk]
    decide
  have htarget : procFind k 1 = some 0 := by
    rw [hk]
    decide
  have hready : (k.procTable 0).state = .ready := by
    rw [hk]
    decide
  have hsend : ipcSend k 1 7#32 none 0#32 = (0, (ipcSend k 1 7#32 none 0#32).2) := by
    refine Prod.ext ?_ rfl
    rw [hk]
    decide
  exact ⟨k, _, _, hsend, send_delivered hrun hcaller htarget (Or.inl hready)
    (fun hpositive ↦ absurd hpositive (by decide)) hsend (tickPath ..)
    (tickCount_replicate 630).ge⟩

end Waiting

end Colix.Ipc
