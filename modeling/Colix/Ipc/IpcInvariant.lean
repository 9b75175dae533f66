import Colix.Foundation.Execution
import Colix.Foundation.LinkedQueue
import Colix.Proc.Pids

/-!
# The message queues

The message pool carries one queue per process. `IpcInvariant` ties the pool's slots, the head and
tail pointers, the counts and the payloads to the history of sends and receives:
`queueSlots` follows the pointers from a process's head, and the messages received by a process
followed by those in its queue are those sent to it. One lemma per operation keeps it.
-/

set_option autoImplicit false
set_option relaxedAutoImplicit false

namespace Colix.Ipc

open Foundation Proc

/-! ### Messages and histories -/

/-- A message as its sender gives it and its receiver gets it. -/
structure Message where
  sender : Pid
  type : Word32
  len : Word32
  payload : List Byte
  deriving DecidableEq

/-- The message a call of `ipc_send` gives: the first `len` bytes of its data. -/
def sentMessage (sender : Pid) (type : Word32) (data : Option (ℕ → Byte)) (len : Word32) :
    Message where
  sender := sender
  type := type
  len := len
  payload :=
    match data with
    | some src => (List.range len.toNat).map src
    | none => []

/-- The message a slot or a receiver's buffer holds. -/
def heldMessage (message : IpcMessage) : Message where
  sender := message.fromPid
  type := message.type
  len := message.len
  payload := (List.range message.len.toNat).map (messageByte message)

/-- A step of a run: a send or a successful receive with what it was given and returned, another
call, or the processor going to another process. -/
inductive IpcEvent
  | send (sender dst : Pid) (type : Word32) (data : Option (ℕ → Byte)) (len : Word32) (result : ℤ)
  | recv (receiver : Pid) (message : IpcMessage)
  | call (call : KernelCall)
  | resume (p : ProcIndex)

/-- The message a step sends to `pid`, when the send succeeds. -/
def IpcEvent.sentTo (pid : Pid) : IpcEvent → Option Message
  | .send sender dst type data len result =>
    if dst = pid ∧ result = 0 then some (sentMessage sender type data len) else none
  | _ => none

/-- The message a step delivers to `pid`. -/
def IpcEvent.receivedBy (pid : Pid) : IpcEvent → Option Message
  | .recv receiver message => if receiver = pid then some (heldMessage message) else none
  | _ => none

/-- The messages sent to `pid`, in send order. -/
def sentTo (pid : Pid) (events : List IpcEvent) : List Message :=
  events.filterMap (IpcEvent.sentTo pid)

/-- The messages `pid` received, in the order it did. -/
def receivedBy (pid : Pid) (events : List IpcEvent) : List Message :=
  events.filterMap (IpcEvent.receivedBy pid)

/-! ### Queues -/

/-- The `next` pointers of the pool. -/
def nextSlot (k : Kernel) (m : MsgIndex) : Option MsgIndex :=
  (k.msgPool m).next

/-- The `msg_queue` and `msg_tail` pointers of the processes. -/
def queueHead (k : Kernel) (q : ProcIndex) : Option MsgIndex :=
  (k.procTable q).msgQueue

def queueTail (k : Kernel) (q : ProcIndex) : Option MsgIndex :=
  (k.procTable q).msgTail

/-- The slots met by following the pointers from a process's `msg_queue`. -/
def queueSlots (k : Kernel) (q : ProcIndex) : List MsgIndex :=
  walk (nextSlot k) ipcPoolSize (queueHead k q)

/-- The messages in a process's queue. -/
def queuedMessages (k : Kernel) (q : ProcIndex) : List Message :=
  (queueSlots k q).map fun m ↦ heldMessage (k.msgPool m)

/-- The pool with its queues, as the library sees them, where `queued` marks the slots in the
queues. -/
abbrev SlotQueues (k : Kernel) (queued : MsgIndex → Bool) (queue : ProcIndex → List MsgIndex) :
    Prop :=
  QueuePool (nextSlot k) queued (queueHead k) (queueTail k) queue

/-- Every slot in use is in a queue. -/
abbrev KernelQueues (k : Kernel) (queue : ProcIndex → List MsgIndex) : Prop :=
  SlotQueues k k.msgUsed queue

variable {queued : MsgIndex → Bool} {queue : ProcIndex → List MsgIndex}

/-- The queues of a pool are those its pointers spell out. -/
theorem SlotQueues.eq_queueSlots {k : Kernel} (hpool : SlotQueues k queued queue) :
    queueSlots k = queue := by
  funext q
  refine (hpool.chain q).walk_eq ?_
  simpa using (hpool.chain q).nodup.length_le_card

/-- Writes to a slot that is in no queue. -/
theorem SlotQueues.setMessage {k : Kernel} {m : MsgIndex} (hpool : SlotQueues k queued queue)
    (hfree : queued m = false) (f : IpcMessage → IpcMessage) :
    SlotQueues (Ipc.setMessage k m f) queued queue := by
  refine hpool.relink fun slot hslot ↦ ?_
  have hne : slot ≠ m := by
    rintro rfl
    rw [hfree] at hslot
    cases hslot
  rw [nextSlot, nextSlot, setMessage_msgPool_of_ne k f hne]

/-- Queueing a slot that is in no queue: the target's queue gains it at its end. -/
theorem SlotQueues.enqueue {k : Kernel} {m : MsgIndex} (hpool : SlotQueues k queued queue)
    (target : ProcIndex) (hfree : queued m = false) :
    SlotQueues (Ipc.enqueue k target m) (Function.update queued m true)
      (Function.update queue target (queue target ++ [m])) := by
  have htail : (k.procTable target).msgTail ≠ some m := hpool.tail_ne_of_unused hfree target
  have hslots := fun slot ↦ enqueue_msgPool k target m slot htail
  refine hpool.append hfree ?_ ?_ ?_ rfl ?_ ?_ ?_ ?_
  · rw [nextSlot, hslots, if_pos rfl]
  · intro last hlast
    have hne : last ≠ m := fun heq ↦ htail (heq ▸ hlast)
    rw [nextSlot, hslots, if_neg hne, if_pos (show (k.procTable target).msgTail = _ from hlast)]
  · intro slot hslot hnotTail
    rw [nextSlot, hslots, if_neg hslot,
      if_neg (show (k.procTable target).msgTail ≠ _ from hnotTail)]
    rfl
  · refine (enqueue_msgQueue _ target target m).trans ?_
    rw [queueTail, queueHead]
    simp
  · exact (enqueue_msgTail _ target target m).trans (if_pos rfl)
  · intro q hne
    exact (enqueue_msgQueue _ target q m).trans (if_neg fun h ↦ hne h.1)
  · intro q hne
    exact (enqueue_msgTail _ target q m).trans (if_neg hne)

/-- Receiving: the caller's queue loses its first slot. -/
theorem SlotQueues.dequeue {k : Kernel} {current : ProcIndex} {m : MsgIndex}
    {rest : List MsgIndex} (hpool : SlotQueues k queued queue) (out : IpcMessage)
    (hqueue : queue current = m :: rest) :
    SlotQueues (Ipc.dequeue k current m out).2 (Function.update queued m false)
      (Function.update queue current rest) := by
  have hnext : nextSlot (Ipc.dequeue k current m out).2 = nextSlot k := by
    funext slot
    rw [nextSlot, nextSlot, (dequeue_frame k current m out).1]
  rw [SlotQueues, hnext]
  refine hpool.remove hqueue rfl ?_ ?_ ?_ ?_
  · exact (dequeue_msgQueue k current current m out).trans (if_pos rfl)
  · refine (dequeue_msgTail k current current m out).trans ?_
    by_cases hend : (k.msgPool m).next = none <;> simp [nextSlot, queueTail, hend]
  · intro q hne
    exact (dequeue_msgQueue k current q m out).trans (if_neg hne)
  · intro q hne
    exact (dequeue_msgTail k current q m out).trans (if_neg fun h ↦ hne h.1)

/-- The first slot of a queue that has one. -/
theorem SlotQueues.exists_cons {k : Kernel} {current : ProcIndex} {m : MsgIndex}
    (hpool : SlotQueues k queued queue) (hhead : (k.procTable current).msgQueue = some m) :
    ∃ rest, queue current = m :: rest := by
  have hfirst := (hpool.chain current).head_eq
  rw [queueHead, hhead, eq_comm] at hfirst
  exact List.head?_eq_some_iff.mp hfirst

/-- Equal mailboxes, field by field. -/
theorem mailbox_fields {first second : Process} (heq : first.mailbox = second.mailbox) :
    first.pid = second.pid ∧ first.msgQueue = second.msgQueue ∧
      first.msgTail = second.msgTail ∧ first.msgCount = second.msgCount := by
  simpa [Process.mailbox] using heq

section Kept

variable {k next : Kernel}

/-- A call that keeps the mailboxes keeps the queues. -/
theorem msgQueue_of_kept (hkept : ProcessesKept k next) (q : ProcIndex) :
    (next.procTable q).msgQueue = (k.procTable q).msgQueue :=
  (mailbox_fields (hkept.mailbox_eq q)).2.1

/-- The queues depend on the pool and the pointers to it. -/
theorem SlotQueues.congr (hpool : SlotQueues k queued queue) (hmsg : next.msgPool = k.msgPool)
    (hhead : ∀ q, (next.procTable q).msgQueue = (k.procTable q).msgQueue)
    (htail : ∀ q, (next.procTable q).msgTail = (k.procTable q).msgTail) :
    SlotQueues next queued queue := by
  have hnext : nextSlot next = nextSlot k := by
    funext m
    rw [nextSlot, nextSlot, hmsg]
  have hheads : queueHead next = queueHead k := funext hhead
  have htails : queueTail next = queueTail k := funext htail
  rw [SlotQueues, hnext, hheads, htails]
  exact hpool

theorem SlotQueues.kept (hpool : SlotQueues k queued queue) (hkept : ProcessesKept k next) :
    SlotQueues next queued queue :=
  hpool.congr hkept.msgPool_eq (msgQueue_of_kept hkept) fun q ↦
    (mailbox_fields (hkept.mailbox_eq q)).2.2.1

/-- A new process takes over the empty queue of its entry. -/
theorem SlotQueues.added {p : ProcIndex} (hpool : SlotQueues k queued queue)
    (hadded : ProcessAdded k next p) (hempty : queueHead k p = none) :
    SlotQueues next queued queue := by
  obtain ⟨-, hqueue, htail, -⟩ : (next.procTable p).pid = k.nextPid ∧
      (next.procTable p).msgQueue = none ∧ (next.procTable p).msgTail = none ∧
        (next.procTable p).msgCount = 0#32 := by
    simpa [Process.mailbox] using hadded.mailbox_added
  have hbefore : (k.procTable p).msgTail = none := (hpool.head_none_iff_tail_none p).mp hempty
  refine hpool.congr hadded.msgPool_eq (fun q ↦ ?_) fun q ↦ ?_
  · by_cases heq : q = p
    · rw [heq, hqueue]
      exact hempty.symm
    · rw [hadded.procTable_of_ne q heq]
  · by_cases heq : q = p
    · rw [heq, htail, hbefore]
    · rw [hadded.procTable_of_ne q heq]

end Kept

/-! ### The messages that slots hold -/

section HeldMessage

variable (type : Word32) (data : Option (ℕ → Byte)) (len : Word32)

/-- A pool slot of the length field's range holds the message as sent. -/
theorem heldMessage_filledMessage (message : IpcMessage) (sender : Pid) (hlen : len.toNat ≤ 256)
    (hdata : 0#32 < len → data ≠ none) :
    heldMessage (filledMessage sender type data len message) =
      sentMessage sender type data len := by
  have hpayload : (List.range len.toNat).map
      (messageByte (filledMessage sender type data len message)) =
        (sentMessage sender type data len).payload := by
    cases data with
    | none =>
      have hzero : len.toNat = 0 := by
        by_contra hne
        exact hdata (BitVec.lt_def.mpr (Nat.pos_of_ne_zero hne)) rfl
      rw [hzero]
      rfl
    | some src =>
      refine List.map_congr_left fun offset hoffset ↦ ?_
      have hlt := List.mem_range.mp hoffset
      have hpositive : 0#32 < len := BitVec.lt_def.mpr (Nat.zero_lt_of_lt hlt)
      have hbuffer : offset < ipcMsgMax := Nat.lt_of_lt_of_le hlt hlen
      simp [messageByte, filledMessage, copyData, hpositive, hbuffer, hlt]
  exact congrArg (Message.mk sender type len) hpayload

end HeldMessage

/-- What the receiver's buffer holds is the message that was in the slot. -/
theorem heldMessage_receivedMessage (message out : IpcMessage) :
    heldMessage (receivedMessage message out) = heldMessage message := by
  rw [heldMessage, heldMessage, Message.mk.injEq]
  refine ⟨rfl, rfl, rfl, List.map_congr_left fun offset hoffset ↦ ?_⟩
  have hlt : offset < message.len.toNat := List.mem_range.mp hoffset
  by_cases hbuffer : offset < ipcMsgMax
  · simp [messageByte, receivedMessage, copyData, hbuffer, hlt]
  · simp [messageByte, hbuffer]

/-! ### The invariant -/

/-- The pool and its queues, tied to the history of sends and receives. -/
structure IpcInvariant (events : List IpcEvent) (k : Kernel) : Prop where
  pids : PidInvariant k
  queues : KernelQueues k (queueSlots k)
  count_eq : ∀ q, (k.procTable q).msgCount.toNat = (queueSlots k q).length
  len_le : ∀ m, k.msgUsed m = true → (k.msgPool m).len.toNat ≤ 256
  unused_empty : ∀ q, (k.procTable q).state = .unused → queueHead k q = none
  fifo : ∀ q, (k.procTable q).state ≠ .unused →
    receivedBy (k.procTable q).pid events ++ queuedMessages k q = sentTo (k.procTable q).pid events
  silent : ∀ pid, (∀ q, (k.procTable q).state ≠ .unused → (k.procTable q).pid ≠ pid) →
    sentTo pid events = [] ∧ receivedBy pid events = []

variable {k next : Kernel} {events : List IpcEvent}

/-- A step that neither sends nor delivers leaves the histories alone. -/
theorem IpcInvariant.quiet (hinv : IpcInvariant events k) (event : IpcEvent)
    (hsent : ∀ pid, event.sentTo pid = none) (hreceived : ∀ pid, event.receivedBy pid = none) :
    IpcInvariant (events ++ [event]) k := by
  have hsame : ∀ pid, sentTo pid (events ++ [event]) = sentTo pid events ∧
      receivedBy pid (events ++ [event]) = receivedBy pid events := fun pid ↦ by
    simp [sentTo, receivedBy, hsent, hreceived]
  refine ⟨hinv.pids, hinv.queues, hinv.count_eq, hinv.len_le, hinv.unused_empty,
    fun q hq ↦ ?_, fun pid hpid ↦ ?_⟩
  · rw [(hsame _).1, (hsame _).2]
    exact hinv.fifo q hq
  · rw [(hsame _).1, (hsame _).2]
    exact hinv.silent pid hpid

/-- The queues are a function of the pool and the mailboxes. -/
theorem queueSlots_congr (hpool : next.msgPool = k.msgPool) {q : ProcIndex}
    (hhead : (next.procTable q).msgQueue = (k.procTable q).msgQueue) :
    queueSlots next q = queueSlots k q ∧ queuedMessages next q = queuedMessages k q := by
  have hslots : queueSlots next q = queueSlots k q := by
    rw [queueSlots, queueSlots, queueHead, queueHead, hhead]
    congr 1
    funext m
    rw [nextSlot, nextSlot, hpool]
  refine ⟨hslots, ?_⟩
  rw [queuedMessages, queuedMessages, hslots, hpool]

/-- Calls that keep every mailbox keep the invariant. -/
theorem IpcInvariant.kept (hinv : IpcInvariant events k) (hkept : ProcessesKept k next) :
    IpcInvariant events next := by
  have hfields := fun q ↦ mailbox_fields (hkept.mailbox_eq q)
  have hslots := fun q ↦ queueSlots_congr hkept.msgPool_eq (hfields q).2.1
  have hqueues : KernelQueues next (queueSlots next) := by
    rw [KernelQueues, hkept.msgUsed_eq, show queueSlots next = _ from funext fun q ↦ (hslots q).1]
    exact hinv.queues.kept hkept
  refine ⟨hinv.pids.kept hkept, hqueues, fun q ↦ ?_, fun m hm ↦ ?_, fun q hq ↦ ?_, fun q hq ↦ ?_,
    fun pid hpid ↦ ?_⟩
  · rw [(hfields q).2.2.2, (hslots q).1]
    exact hinv.count_eq q
  · rw [hkept.msgUsed_eq] at hm
    rw [hkept.msgPool_eq]
    exact hinv.len_le m hm
  · rw [queueHead, (hfields q).2.1]
    exact hinv.unused_empty q ((hkept.unused_iff q).mp hq)
  · rw [(hfields q).1, (hslots q).2]
    exact hinv.fifo q ((hkept.unused_iff q).not.mp hq)
  · refine hinv.silent pid fun q hq ↦ ?_
    rw [← (hfields q).1]
    exact hpid q ((hkept.unused_iff q).not.mpr hq)

/-- A new process starts with no messages sent to it. -/
theorem IpcInvariant.added (hinv : IpcInvariant events k) {p : ProcIndex}
    (hadded : ProcessAdded k next p) : IpcInvariant events next := by
  obtain ⟨hpid, hqueue, htail, hcount⟩ : (next.procTable p).pid = k.nextPid ∧
      (next.procTable p).msgQueue = none ∧ (next.procTable p).msgTail = none ∧
        (next.procTable p).msgCount = 0#32 := by
    simpa [Process.mailbox] using hadded.mailbox_added
  have hbefore : queueHead k p = none := hinv.unused_empty p hadded.unused_before
  have hheads : queueHead next = queueHead k := by
    funext q
    by_cases heq : q = p
    · rw [heq, hbefore, queueHead, hqueue]
    · rw [queueHead, queueHead, hadded.procTable_of_ne q heq]
  have hslots := fun q ↦ queueSlots_congr hadded.msgPool_eq (congrFun hheads q)
  have hempty : queueSlots next p = [] := by
    rw [(hslots p).1]
    exact (hinv.queues.chain p).head_eq_none_iff.mp hbefore
  have hqueues : KernelQueues next (queueSlots next) := by
    rw [KernelQueues, hadded.msgUsed_eq, show queueSlots next = _ from funext fun q ↦ (hslots q).1]
    exact hinv.queues.added hadded hbefore
  have hfresh : sentTo k.nextPid events = [] ∧ receivedBy k.nextPid events = [] :=
    hinv.silent k.nextPid fun q hq ↦ hinv.pids.pid_ne_nextPid hq
  refine ⟨hinv.pids.added hadded, hqueues, fun q ↦ ?_, fun m hm ↦ ?_, fun q hq ↦ ?_, fun q hq ↦ ?_,
    fun pid hsilent ↦ ?_⟩
  · by_cases heq : q = p
    · rw [heq, hcount, hempty]
      rfl
    · rw [hadded.procTable_of_ne q heq, (hslots q).1]
      exact hinv.count_eq q
  · rw [hadded.msgUsed_eq] at hm
    rw [hadded.msgPool_eq]
    exact hinv.len_le m hm
  · by_cases heq : q = p
    · rw [heq, queueHead, hqueue]
    · rw [hheads]
      rw [hadded.procTable_of_ne q heq] at hq
      exact hinv.unused_empty q hq
  · by_cases heq : q = p
    · rw [heq, hpid, hfresh.1, hfresh.2, queuedMessages, hempty]
      rfl
    · rw [hadded.procTable_of_ne q heq] at hq ⊢
      rw [(hslots q).2]
      exact hinv.fifo q hq
  · refine hinv.silent pid fun q hq ↦ ?_
    have hne : q ≠ p := fun heq ↦ hq (heq ▸ hadded.unused_before)
    have hother := hsilent q
    rw [hadded.procTable_of_ne q hne] at hother
    exact hother hq

/-- Before any process exists there are no messages. -/
theorem IpcInvariant.init : IpcInvariant [] (procInit Kernel.bss) := by
  have hempty : ∀ q, queueSlots (procInit Kernel.bss) q = [] := fun _ ↦ rfl
  refine ⟨PidInvariant.init, ⟨fun q ↦ ?_, fun q ↦ ?_, fun m ↦ ?_, fun q _ m hq ↦ ?_⟩, fun q ↦ rfl,
    fun m hm ↦ ?_, fun q _ ↦ rfl, fun q hq ↦ ?_, fun _ _ ↦ ⟨rfl, rfl⟩⟩
  · rw [hempty]
    rfl
  · rw [hempty]
    rfl
  · refine iff_of_false (fun hm ↦ Bool.noConfusion (show false = true from hm)) ?_
    rintro ⟨q, hq⟩
    rw [hempty] at hq
    exact List.not_mem_nil hq
  · rw [hempty] at hq
    exact absurd hq List.not_mem_nil
  · exact Bool.noConfusion (show false = true from hm)
  · exact absurd rfl hq

end Colix.Ipc
