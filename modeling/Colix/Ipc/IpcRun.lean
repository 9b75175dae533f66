import Colix.Ipc.IpcInvariant

/-!
# Message passing along runs

`ipcSystem` runs the kernel from the state `kernel_main` reaches, with sends and receives by any
processes in any order. `IpcInvariant.send` and `IpcInvariant.recv` are its two main steps,
`IpcInvariant.of_run` the run lemma, and `ipc_run_correct` what senders and receivers see.
-/

set_option autoImplicit false
set_option relaxedAutoImplicit false

namespace Colix.Ipc

open Foundation Proc

/-- Runs of the kernel. A step is a send with non-NULL data when it has a length, a receive that
returns a message, another call, or the processor going to any process. -/
def ipcSystem (entryPoints : EntryPoints) : TransitionSystem Kernel IpcEvent where
  start k := ∃ procIdle idleStack shell idle,
    kernelMain entryPoints procIdle idleStack shell = some (idle, k)
  step k event next :=
    match event with
    | .send sender dst type data len result =>
      sender = k.currentPid ∧ (0#32 < len → data ≠ none) ∧
        ipcSend k dst type data len = (result, next)
    | .recv receiver message =>
      receiver = k.currentPid ∧ ∃ out, ipcRecv k (some out) = .returned 0 (some message) next
    | .call call => (call.perform entryPoints k).1 = next
    | .resume p => (k.procTable p).state ≠ .unused ∧ next = { k with currentProc := some p }

variable {k next : Kernel} {events : List IpcEvent} {entryPoints : EntryPoints}

/-! ### Sending -/

section Send

variable {target : ProcIndex} {m : MsgIndex} {type : Word32} {data : Option (ℕ → Byte)}
  {len : Word32}

theorem pidInvariant_queuedState (hpids : PidInvariant k) :
    PidInvariant (queuedState k target m type data len) := by
  obtain ⟨-, hcurrent, hnext⟩ := queuedState_frame k target m type data len
  refine hpids.congr (fun i ↦ pid_queuedState ..) (fun i ↦ by rw [state_queuedState]) hnext
    fun i hi ↦ ?_
  rw [hcurrent] at hi
  rw [state_queuedState]
  exact hpids.current i hi

/-- A slot not in use is no queue's tail. -/
theorem msgTail_ne_of_unused (hinv : IpcInvariant events k) (hunused : k.msgUsed m = false)
    (q : ProcIndex) : (k.procTable q).msgTail ≠ some m :=
  hinv.queues.tail_ne_of_unused hunused q

/-- The queues after a send: the target's gains the slot at its end. -/
theorem kernelQueues_queuedState (target : ProcIndex) (type : Word32) (data : Option (ℕ → Byte))
    (len : Word32) (hinv : IpcInvariant events k) (hunused : k.msgUsed m = false) :
    KernelQueues (queuedState k target m type data len)
      (Function.update (queueSlots k) target (queueSlots k target ++ [m])) := by
  have htaken : SlotQueues { k with msgUsed := Function.update k.msgUsed m true } k.msgUsed
      (queueSlots k) := hinv.queues
  rw [KernelQueues, (queuedState_frame ..).1]
  exact ((htaken.setMessage hunused _).setMessage hunused _).enqueue target hunused

/-- A slot keeps its message when another slot is queued, and the new slot holds the one sent. -/
theorem heldMessage_queuedState (target : ProcIndex) (type : Word32) (hinv : IpcInvariant events k)
    (hunused : k.msgUsed m = false)
    (hlen : len.toNat ≤ 256) (hdata : 0#32 < len → data ≠ none) (slot : MsgIndex) :
    heldMessage ((queuedState k target m type data len).msgPool slot) =
      if slot = m then sentMessage k.currentPid type data len
      else heldMessage (k.msgPool slot) := by
  rw [queuedState_msgPool k target m slot type data len (msgTail_ne_of_unused hinv hunused target)]
  by_cases hslot : slot = m
  · rw [if_pos hslot, if_pos hslot]
    exact heldMessage_filledMessage type data len { k.msgPool m with next := none } k.currentPid
      hlen hdata
  · rw [if_neg hslot, if_neg hslot]
    split_ifs <;> rfl

/-- The messages queued after a send: the target's gain the one sent. -/
theorem queuedMessages_queuedState (target : ProcIndex) (type : Word32)
    (hinv : IpcInvariant events k) (hunused : k.msgUsed m = false)
    (hlen : len.toNat ≤ 256) (hdata : 0#32 < len → data ≠ none) (q : ProcIndex) :
    queuedMessages (queuedState k target m type data len) q =
      if q = target then queuedMessages k q ++ [sentMessage k.currentPid type data len]
      else queuedMessages k q := by
  have hheld := fun slot ↦
    heldMessage_queuedState target type hinv hunused hlen hdata slot
  have hold : ∀ q, (queueSlots k q).map (fun slot ↦
      heldMessage ((queuedState k target m type data len).msgPool slot)) = queuedMessages k q := by
    intro q
    refine List.map_congr_left fun slot hslot ↦ ?_
    rw [hheld, if_neg]
    rintro rfl
    rw [(hinv.queues.used_iff slot).mpr ⟨q, hslot⟩] at hunused
    cases hunused
  rw [queuedMessages, (kernelQueues_queuedState target type data len hinv hunused).eq_queueSlots]
  by_cases heq : q = target
  · rw [heq, Function.update_self, List.map_append, hold, if_pos rfl, List.map_singleton, hheld,
      if_pos rfl]
  · rw [Function.update_of_ne heq, hold, if_neg heq]

/-- A queue is no longer than the pool. -/
theorem length_queueSlots_le (hinv : IpcInvariant events k) (q : ProcIndex) :
    (queueSlots k q).length ≤ 128 := by
  simpa using (hinv.queues.chain q).nodup.length_le_card

/-- Queueing a message keeps the invariant, with the message sent in the history. -/
theorem IpcInvariant.queued (hinv : IpcInvariant events k) (type : Word32) {dst : Pid}
    (htarget : procFind k dst = some target) (hunused : k.msgUsed m = false)
    (hlen : len.toNat ≤ 256) (hdata : 0#32 < len → data ≠ none) :
    IpcInvariant (events ++ [.send k.currentPid dst type data len 0])
      (queuedState k target m type data len) := by
  obtain ⟨hused, hpid⟩ := procFind_some htarget
  have hqueues := kernelQueues_queuedState target type data len hinv hunused
  have hslots := hqueues.eq_queueSlots
  have hmessages := queuedMessages_queuedState target type hinv hunused hlen hdata
  have hsent : ∀ pid, sentTo pid (events ++ [.send k.currentPid dst type data len 0]) =
      sentTo pid events ++ if dst = pid then [sentMessage k.currentPid type data len] else [] := by
    intro pid
    by_cases heq : dst = pid <;> simp [sentTo, IpcEvent.sentTo, heq]
  have hreceived : ∀ pid, receivedBy pid (events ++ [.send k.currentPid dst type data len 0]) =
      receivedBy pid events := fun pid ↦ by simp [receivedBy, IpcEvent.receivedBy]
  refine ⟨pidInvariant_queuedState hinv.pids, hslots ▸ hqueues, fun q ↦ ?_, fun slot hslot ↦ ?_,
    fun q hq ↦ ?_, fun q hq ↦ ?_, fun pid hsilent ↦ ?_⟩
  · have hafter : ((queuedState k target m type data len).procTable q).msgCount =
        if q = target then (k.procTable q).msgCount + 1#32 else (k.procTable q).msgCount :=
      enqueue_msgCount _ target q m
    have hcount := hinv.count_eq q
    have hbound := length_queueSlots_le hinv q
    rw [hafter, hslots]
    by_cases heq : q = target
    · subst heq
      rw [if_pos rfl, Function.update_self, List.length_append, List.length_singleton,
        BitVec.toNat_add, hcount, show (1#32).toNat = 1 from rfl]
      exact Nat.mod_eq_of_lt (by omega)
    · rw [if_neg heq, Function.update_of_ne heq, hcount]
  · rw [(queuedState_frame ..).1] at hslot
    rw [queuedState_msgPool k target m slot type data len (msgTail_ne_of_unused hinv hunused _)]
    by_cases heq : slot = m
    · rw [if_pos heq]
      exact hlen
    · rw [Function.update_of_ne heq] at hslot
      have hkeep := hinv.len_le slot hslot
      rw [if_neg heq]
      split_ifs <;> exact hkeep
  · rw [state_queuedState] at hq
    have hne : q ≠ target := fun heq ↦ hused (heq ▸ hq)
    refine (enqueue_msgQueue _ target q m).trans ((if_neg fun h ↦ hne h.1).trans ?_)
    exact hinv.unused_empty q hq
  · rw [state_queuedState] at hq
    rw [pid_queuedState, hmessages, hsent, hreceived]
    by_cases heq : q = target
    · rw [if_pos heq, heq, hpid, if_pos rfl, ← List.append_assoc, ← hpid, hinv.fifo target hused]
    · have hne : dst ≠ (k.procTable q).pid := fun h ↦
        heq (hinv.pids.pid_inj q target hq hused (by rw [← h, hpid]))
      rw [if_neg heq, if_neg hne, List.append_nil]
      exact hinv.fifo q hq
  · rw [hsent, hreceived, if_neg, List.append_nil]
    · refine hinv.silent pid fun q hq ↦ ?_
      rw [← pid_queuedState]
      exact hsilent q (by rwa [state_queuedState])
    · rintro rfl
      have hother := hsilent target (by rwa [state_queuedState])
      rw [pid_queuedState] at hother
      exact hother hpid

/-- A send keeps the invariant, whatever it returns. -/
theorem IpcInvariant.send (hinv : IpcInvariant events k) {dst : Pid} {result : ℤ}
    (hdata : 0#32 < len → data ≠ none) (hsend : ipcSend k dst type data len = (result, next)) :
    IpcInvariant (events ++ [.send k.currentPid dst type data len result]) next := by
  have hfailed : ∀ code : ℤ, code ≠ 0 → ipcSend k dst type data len = (code, k) →
      IpcInvariant (events ++ [.send k.currentPid dst type data len result]) next := by
    intro code hcode hreturn
    rw [hreturn, Prod.mk.injEq] at hsend
    obtain ⟨rfl, rfl⟩ := hsend
    exact hinv.quiet _ (fun pid ↦ if_neg fun h ↦ hcode h.2) fun _ ↦ rfl
  rcases ipcSend_cases k dst type data len with ⟨-, hreturn⟩ |
    ⟨target, htarget, ⟨-, hreturn⟩ | ⟨-, -, hreturn⟩ | ⟨hlen, m, hunused, hreturn⟩⟩
  · exact hfailed _ (by decide) hreturn
  · exact hfailed _ (by decide) hreturn
  · exact hfailed _ (by decide) hreturn
  · rw [hreturn, Prod.mk.injEq] at hsend
    obtain ⟨rfl, rfl⟩ := hsend
    have hqueued := hinv.queued type htarget hunused hlen hdata
    exact hqueued.kept (processesKept_procWakeup hqueued.pids.current target)

end Send

/-! ### Receiving -/

section Recv

variable {current : ProcIndex} {m : MsgIndex} {out : IpcMessage}

theorem pidInvariant_dequeue (hpids : PidInvariant k) :
    PidInvariant (dequeue k current m out).2 := by
  obtain ⟨-, -, hcurrent, hnext⟩ := dequeue_frame k current m out
  refine hpids.congr (fun i ↦ pid_dequeue ..) (fun i ↦ by rw [state_dequeue]) hnext fun i hi ↦ ?_
  rw [hcurrent] at hi
  rw [state_dequeue]
  exact hpids.current i hi

/-- A process that has a head message has it at the front of its queue. -/
theorem exists_queueSlots_cons (hinv : IpcInvariant events k)
    (hhead : (k.procTable current).msgQueue = some m) :
    ∃ rest, queueSlots k current = m :: rest :=
  hinv.queues.exists_cons hhead

/-- The queues after a receive: the caller's loses its first slot. -/
theorem kernelQueues_dequeue (out : IpcMessage) (hinv : IpcInvariant events k)
    {rest : List MsgIndex}
    (hqueue : queueSlots k current = m :: rest) :
    KernelQueues (dequeue k current m out).2 (Function.update (queueSlots k) current rest) := by
  rw [KernelQueues, (dequeue_frame k current m out).2.1]
  exact hinv.queues.dequeue out hqueue

/-- Unlinking the head keeps the invariant, with the message delivered in the history. -/
theorem IpcInvariant.dequeued (hinv : IpcInvariant events k)
    (hcurrent : k.currentProc = some current)
    (hhead : (k.procTable current).msgQueue = some m) :
    IpcInvariant (events ++ [.recv k.currentPid (receivedMessage (k.msgPool m) out)])
      (dequeue k current m out).2 := by
  obtain ⟨rest, hqueue⟩ := exists_queueSlots_cons hinv hhead
  obtain ⟨hpool, hused, -, -⟩ := dequeue_frame k current m out
  have hqueues := kernelQueues_dequeue out hinv hqueue
  have hslots := hqueues.eq_queueSlots
  have hreceiver : k.currentPid = (k.procTable current).pid := by
    rw [Kernel.currentPid, hcurrent]
  have hinUse := hinv.pids.current current hcurrent
  have hsent : ∀ pid, sentTo pid (events ++ [.recv k.currentPid
      (receivedMessage (k.msgPool m) out)]) = sentTo pid events := fun pid ↦ by
    simp [sentTo, IpcEvent.sentTo]
  have hreceived : ∀ pid, receivedBy pid (events ++ [.recv k.currentPid
      (receivedMessage (k.msgPool m) out)]) = receivedBy pid events ++
        if (k.procTable current).pid = pid then [heldMessage (k.msgPool m)] else [] := by
    intro pid
    by_cases heq : (k.procTable current).pid = pid <;>
      simp [receivedBy, IpcEvent.receivedBy, hreceiver, heq, heldMessage_receivedMessage]
  refine ⟨pidInvariant_dequeue hinv.pids, hslots ▸ hqueues, fun q ↦ ?_, fun slot hslot ↦ ?_,
    fun q hq ↦ ?_, fun q hq ↦ ?_, fun pid hsilent ↦ ?_⟩
  · have hcount := hinv.count_eq q
    have hbound := length_queueSlots_le hinv q
    rw [dequeue_msgCount, hslots]
    by_cases heq : q = current
    · subst heq
      rw [hqueue, List.length_cons] at hcount hbound
      rw [if_pos rfl, Function.update_self, BitVec.toNat_sub_of_le, hcount]
      · rfl
      · rw [BitVec.le_def, hcount, show (1#32).toNat = 1 from rfl]
        omega
    · rw [if_neg heq, Function.update_of_ne heq, hcount]
  · rw [hused] at hslot
    have hne : slot ≠ m := by
      rintro rfl
      rw [Function.update_self] at hslot
      cases hslot
    rw [Function.update_of_ne hne] at hslot
    rw [hpool]
    exact hinv.len_le slot hslot
  · rw [state_dequeue] at hq
    have hne : q ≠ current := fun heq ↦ hinUse (heq ▸ hq)
    rw [queueHead, dequeue_msgQueue, if_neg hne]
    exact hinv.unused_empty q hq
  · rw [state_dequeue] at hq
    have hfifo := hinv.fifo q hq
    rw [pid_dequeue, hsent, hreceived, queuedMessages, hslots, hpool]
    rw [queuedMessages] at hfifo
    by_cases heq : q = current
    · rw [heq, hqueue] at hfifo
      rw [heq, if_pos rfl, Function.update_self, List.append_assoc, ← hfifo]
      rfl
    · have hne : (k.procTable current).pid ≠ (k.procTable q).pid := fun h ↦
        heq (hinv.pids.pid_inj q current hq hinUse h.symm)
      rw [if_neg hne, List.append_nil, Function.update_of_ne heq]
      exact hfifo
  · rw [hsent, hreceived, if_neg, List.append_nil]
    · refine hinv.silent pid fun q hq ↦ ?_
      rw [← pid_dequeue]
      exact hsilent q (by rwa [state_dequeue])
    · have hother := hsilent current (by rwa [state_dequeue])
      rwa [pid_dequeue] at hother

/-- A receive that returns a message keeps the invariant. -/
theorem IpcInvariant.recv (hinv : IpcInvariant events k) {message : IpcMessage}
    (hrecv : ipcRecv k (some out) = .returned 0 (some message) next) :
    IpcInvariant (events ++ [.recv k.currentPid message]) next := by
  rcases ipcRecv_returned_cases hrecv with ⟨hresult, -⟩ |
    ⟨current, m, buffer, hcurrent, hhead, hbuffer, -, hmessage, rfl⟩
  · cases hresult
  · rw [Option.some.injEq] at hmessage
    rw [hmessage, dequeue_message]
    exact hinv.dequeued hcurrent hhead

end Recv

/-! ### Runs -/

/-- One step of a run keeps the invariant. -/
theorem IpcInvariant.step (hinv : IpcInvariant events k) {event : IpcEvent}
    (hstep : (ipcSystem entryPoints).step k event next) :
    IpcInvariant (events ++ [event]) next := by
  cases event with
  | send sender dst type data len result =>
    obtain ⟨rfl, hdata, hsend⟩ := hstep
    exact hinv.send hdata hsend
  | recv receiver message =>
    obtain ⟨rfl, out, hrecv⟩ := hstep
    exact hinv.recv hrecv
  | call call =>
    have hquiet := hinv.quiet (.call call) (fun _ ↦ rfl) fun _ ↦ rfl
    have hnext : (call.perform entryPoints k).1 = next := hstep
    rcases call.perform_cases hinv.pids.current entryPoints with hkept | ⟨p, hadded⟩
    · exact hnext ▸ hquiet.kept hkept
    · exact hnext ▸ hquiet.added hadded
  | resume p =>
    obtain ⟨hused, rfl⟩ := hstep
    have hquiet := hinv.quiet (.resume p) (fun _ ↦ rfl) fun _ ↦ rfl
    refine hquiet.kept ⟨rfl, rfl, rfl, fun _ ↦ rfl, fun _ ↦ Iff.rfl, fun i hi ↦ ?_⟩
    cases hi
    exact hused

/-- The state `kernel_main` reaches has no messages. -/
theorem IpcInvariant.start (hstart : (ipcSystem entryPoints).start k) : IpcInvariant [] k := by
  obtain ⟨procIdle, idleStack, shell, idle, hmain⟩ := hstart
  obtain ⟨first, second, hfirst, hsecond, hready, rfl⟩ := kernelMain_cases hmain
  have hidle : IpcInvariant [] first := IpcInvariant.init.added hfirst
  have hshell : IpcInvariant [] second := by
    rcases hsecond with rfl | ⟨p, hadded⟩
    · exact hidle
    · exact hidle.added hadded
  refine hshell.kept (processesKept_startScheduler ?_)
  rw [hready]
  exact fun h ↦ ProcState.noConfusion h

/-- The run lemma. -/
theorem IpcInvariant.of_run (hrun : (ipcSystem entryPoints).Run events k) :
    IpcInvariant events k :=
  hrun.history_invariant (motive := IpcInvariant) (fun _ ↦ IpcInvariant.start)
    fun _ _ _ _ hinv hstep ↦ hinv.step hstep

/-! ### What senders and receivers see -/

/-- What holds of message passing in a state reached by a history of sends and receives. -/
structure IpcCorrect (events : List IpcEvent) (k : Kernel) : Prop where
  /-- What a process received, followed by what is in its queue, is what was sent to it. -/
  fifo : ∀ q, (k.procTable q).state ≠ .unused →
    receivedBy (k.procTable q).pid events ++ queuedMessages k q = sentTo (k.procTable q).pid events
  /-- Nothing was sent to a pid that no process has. -/
  silent : ∀ pid, procFind k pid = none → sentTo pid events = []
  queue_none_iff : ∀ q, (k.procTable q).msgQueue = none ↔ (k.procTable q).msgTail = none
  /-- The queue of a process is the acyclic list from `msg_queue`, which ends at `msg_tail`. -/
  chain : ∀ q, Chain (nextSlot k) (k.procTable q).msgQueue (queueSlots k q)
  acyclic : ∀ q, (queueSlots k q).Nodup
  tail_last : ∀ q, (k.procTable q).msgTail = (queueSlots k q).getLast?
  count : ∀ q, (k.procTable q).msgCount.toNat = (queueSlots k q).length
  used_iff : ∀ m, k.msgUsed m = true ↔ ∃! q, m ∈ queueSlots k q
  len_le : ∀ m, k.msgUsed m = true → (k.msgPool m).len.toNat ≤ 256
  /-- A send to a process, of a length in range, fails only on a full pool. -/
  enomem_iff : ∀ dst type data len, procFind k dst ≠ none → len.toNat ≤ 256 →
    ((ipcSend k dst type data len).1 = -enomem ↔ ∑ q, (queueSlots k q).length = 128)
  failure : ∀ dst type data len,
    (ipcSend k dst type data len).1 ≠ 0 → (ipcSend k dst type data len).2 = k

/-- The pool is full exactly when 128 messages are queued. -/
theorem all_used_iff (hinv : IpcInvariant events k) :
    (∀ m, k.msgUsed m = true) ↔ ∑ q, (queueSlots k q).length = 128 := by
  have hcard : (Finset.univ : Finset MsgIndex).card = 128 := rfl
  rw [hinv.queues.sum_length]
  constructor
  · intro hall
    rw [Finset.filter_true_of_mem fun m _ ↦ hall m, hcard]
  · intro hfull m
    have hsame := Finset.eq_univ_of_card _ (hfull.trans hcard.symm)
    have hmem : m ∈ Finset.univ.filter fun slot ↦ k.msgUsed slot = true := by
      rw [hsame]
      exact Finset.mem_univ m
    exact (Finset.mem_filter.mp hmem).2

/-- Message passing is exactly-once and first-in first-out along every run. -/
theorem ipc_run_correct (hrun : (ipcSystem entryPoints).Run events k) : IpcCorrect events k := by
  have hinv := IpcInvariant.of_run hrun
  refine ⟨hinv.fifo, fun pid hpid ↦ ?_, hinv.queues.head_none_iff_tail_none, hinv.queues.chain,
    fun q ↦ (hinv.queues.chain q).nodup, hinv.queues.tail_eq, hinv.count_eq,
    hinv.queues.used_iff_existsUnique, hinv.len_le, fun dst type data len hdst hlen ↦ ?_,
    fun dst type data len hfail ↦ ?_⟩
  · refine (hinv.silent pid fun q hq heq ↦ ?_).1
    rw [← heq, hinv.pids.procFind_pid hq] at hpid
    cases hpid
  · rw [← all_used_iff hinv]
    rcases ipcSend_cases k dst type data len with ⟨hnone, -⟩ |
      ⟨target, -, ⟨hlong, -⟩ | ⟨-, hall, hreturn⟩ | ⟨-, m, hunused, hreturn⟩⟩
    · exact absurd hnone hdst
    · omega
    · exact iff_of_true (by rw [hreturn]) hall
    · have hne : (0 : ℤ) ≠ -enomem := by decide
      refine iff_of_false (by rwa [hreturn]) fun hall ↦ ?_
      rw [hall m] at hunused
      cases hunused
  · rcases ipcSend_cases k dst type data len with ⟨-, hreturn⟩ |
      ⟨target, -, ⟨-, hreturn⟩ | ⟨-, -, hreturn⟩ | ⟨-, m, -, hreturn⟩⟩
    · rw [hreturn]
    · rw [hreturn]
    · rw [hreturn]
    · rw [hreturn] at hfail
      exact absurd rfl hfail

/-- The idle process sends itself a message of three bytes and receives it. -/
theorem ipc_run_correct_idle : ∃ k sent received message,
    kernelMain ⟨1#64, 2#64⟩ 3#64 0xFFFF900000000018#64 none = some (0, k) ∧
      ipcSend k 1 7#32 (some fun i ↦ BitVec.ofNat 8 i) 3#32 = (0, sent) ∧
      ipcRecv sent (some IpcMessage.zero) = .returned 0 (some message) received ∧
      IpcCorrect [.send 1 1 7#32 (some fun i ↦ BitVec.ofNat 8 i) 3#32 0, .recv 1 message]
        received := by
  obtain ⟨k, sent, received, message, hmain, hsend, hrecv, hsender, hreceiver⟩ :
      ∃ k sent received message,
        kernelMain ⟨1#64, 2#64⟩ 3#64 0xFFFF900000000018#64 none = some (0, k) ∧
          ipcSend k 1 7#32 (some fun i ↦ BitVec.ofNat 8 i) 3#32 = (0, sent) ∧
          ipcRecv sent (some IpcMessage.zero) = .returned 0 (some message) received ∧
          1 = k.currentPid ∧ 1 = sent.currentPid :=
    ⟨_, _, _, _, rfl, rfl, rfl, rfl, rfl⟩
  have hstart : (ipcSystem ⟨1#64, 2#64⟩).Run [] k :=
    TransitionSystem.Run.start ⟨3#64, 0xFFFF900000000018#64, none, 0, hmain⟩
  have hsent : (ipcSystem ⟨1#64, 2#64⟩).step k (.send 1 1 7#32 (some _) 3#32 0) sent :=
    ⟨hsender, fun _ ↦ Option.some_ne_none _, hsend⟩
  have hreceived : (ipcSystem ⟨1#64, 2#64⟩).step sent (.recv 1 message) received :=
    ⟨hreceiver, IpcMessage.zero, hrecv⟩
  exact ⟨k, sent, received, message, hmain, hsend, hrecv,
    ipc_run_correct ((hstart.step hsent).step hreceived)⟩

end Colix.Ipc
