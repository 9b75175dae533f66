import Colix.Proc.Scheduler

/-!
# Message passing

`kernel/ipc/ipc.c`: a pool of 128 message slots shared by all processes, and one singly linked queue
per process threaded through it. `ipc_send` is one state change. `ipc_recv` loops: a pass either
takes the head of the caller's queue and returns, or puts the caller to sleep and comes round again.

`ipcSend_cases` says all that a send can do; `ipcRecv_returned_cases` and `ipcRecv_slept` say it for
a pass of `ipc_recv`.
-/

set_option autoImplicit false
set_option relaxedAutoImplicit false

namespace Colix.Ipc

open Proc

/-! ### The source -/

/-- Writes to fields of one pool slot. -/
def setMessage (k : Kernel) (m : MsgIndex) (f : IpcMessage → IpcMessage) : Kernel :=
  { k with msgPool := Function.update k.msgPool m (f (k.msgPool m)) }

/-- `msg_alloc`: the first slot not in use, marked and unlinked. -/
def msgAlloc (k : Kernel) : Option (MsgIndex × Kernel) :=
  match (List.finRange ipcPoolSize).find? fun i ↦ !k.msgUsed i with
  | some i =>
    some (i, setMessage { k with msgUsed := Function.update k.msgUsed i true } i fun message ↦
      { message with next := none })
  | none => none

/-- `msg_free`. -/
def msgFree (k : Kernel) (m : MsgIndex) : Kernel :=
  { k with msgUsed := Function.update k.msgUsed m false }

/-- `for (i = 0; i < len; i++) dst[i] = src[i]` on a message's data. -/
def copyData (dst : Fin ipcMsgMax → Byte) (src : ℕ → Byte) (len : Word32) : Fin ipcMsgMax → Byte :=
  fun i ↦ if (i : ℕ) < len.toNat then src i else dst i

/-- The fields `ipc_send` fills in before it queues the message. A NULL `data` is `none`. -/
def filledMessage (sender : Pid) (type : Word32) (data : Option (ℕ → Byte)) (len : Word32)
    (message : IpcMessage) : IpcMessage :=
  { message with
    fromPid := sender
    type := type
    len := len
    data :=
      match data with
      | some src => if 0#32 < len then copyData message.data src len else message.data
      | none => message.data }

/-- The append of `ipc_send`: `m` becomes the tail of the target's queue. -/
def enqueue (k : Kernel) (target : ProcIndex) (m : MsgIndex) : Kernel :=
  let k := setMessage k m fun message ↦ { message with next := none }
  let k :=
    match (k.procTable target).msgTail with
    | none => k.modify target fun process ↦ { process with msgQueue := some m, msgTail := some m }
    | some tail =>
      (setMessage k tail fun message ↦ { message with next := some m }).modify target fun process ↦
        { process with msgTail := some m }
  k.modify target fun process ↦ { process with msgCount := process.msgCount + 1#32 }

/-- `ipc_send(dst, type, data, len)`. -/
def ipcSend (k : Kernel) (dst : Pid) (type : Word32) (data : Option (ℕ → Byte)) (len : Word32) :
    ℤ × Kernel :=
  match procFind k dst with
  | none => (-esrch, k)
  | some target =>
    if 256#32 < len then (-einval, k)
    else
      match msgAlloc k with
      | none => (-enomem, k)
      | some (m, k) =>
        let k := setMessage k m (filledMessage k.currentPid type data len)
        let k := enqueue k target m
        (0, if (k.procTable target).state = .sleeping then procWakeup k target else k)

/-- `m->data[i]`. -/
def messageByte (message : IpcMessage) (i : ℕ) : Byte :=
  if h : i < ipcMsgMax then message.data ⟨i, h⟩ else 0#8

/-- What the receiver's buffer holds after the copy of `ipc_recv`. -/
def receivedMessage (message out : IpcMessage) : IpcMessage :=
  { fromPid := message.fromPid
    type := message.type
    len := message.len
    data := copyData out.data (messageByte message) message.len
    next := none }

/-- The protected part of a pass of `ipc_recv` that finds a message: the head of the caller's queue
is unlinked, copied out and freed. -/
def dequeue (k : Kernel) (current : ProcIndex) (m : MsgIndex) (out : IpcMessage) :
    IpcMessage × Kernel :=
  let k := k.modify current fun process ↦ { process with msgQueue := (k.msgPool m).next }
  let k :=
    if (k.procTable current).msgQueue = none then
      k.modify current fun process ↦ { process with msgTail := none }
    else k
  let k := k.modify current fun process ↦ { process with msgCount := process.msgCount - 1#32 }
  (receivedMessage (k.msgPool m) out, msgFree k m)

/-- How a pass of `ipc_recv`'s loop ends: with a return value and the receiver's buffer, or asleep
and due for another pass. -/
inductive RecvPass
  | returned (result : ℤ) (out : Option IpcMessage) (k : Kernel)
  | slept (k : Kernel) (switch : Option ContextSwitch)

/-- The state a pass leaves. -/
def RecvPass.kernel : RecvPass → Kernel
  | .returned _ _ k => k
  | .slept k _ => k

/-- One pass of `ipc_recv(out)`. -/
def ipcRecv (k : Kernel) (out : Option IpcMessage) : RecvPass :=
  match k.currentProc, out with
  | some current, some out =>
    match (k.procTable current).msgQueue with
    | some m =>
      let (message, k) := dequeue k current m out
      .returned 0 (some message) k
    | none =>
      let (k, switch) := procSleep k 10#64
      .slept k switch
  | _, out => .returned (-einval) out k

/-! ### Small facts -/

section SetMessage

variable (k : Kernel) (m : MsgIndex) (f : IpcMessage → IpcMessage)

@[simp] theorem setMessage_procTable : (setMessage k m f).procTable = k.procTable := rfl

@[simp] theorem setMessage_currentProc : (setMessage k m f).currentProc = k.currentProc := rfl

@[simp] theorem setMessage_msgUsed : (setMessage k m f).msgUsed = k.msgUsed := rfl

@[simp] theorem setMessage_msgPool_self : (setMessage k m f).msgPool m = f (k.msgPool m) :=
  Function.update_self ..

@[simp] theorem setMessage_msgPool_of_ne {m other : MsgIndex} (hne : other ≠ m) :
    (setMessage k m f).msgPool other = k.msgPool other :=
  Function.update_of_ne hne ..

end SetMessage

/-- `proc_wakeup` changes no field but `state`. -/
theorem procWakeup_field {α : Type*} (field : Process → α)
    (hstate : ∀ process state, field { process with state := state } = field process)
    (k : Kernel) (p i : ProcIndex) :
    field ((procWakeup k p).procTable i) = field (k.procTable i) := by
  rw [procWakeup]
  split_ifs
  · exact k.modify_field p i _ field fun _ ↦ hstate _ _
  · rfl

theorem procWakeup_frame (k : Kernel) (p : ProcIndex) :
    (procWakeup k p).msgPool = k.msgPool ∧ (procWakeup k p).msgUsed = k.msgUsed ∧
      (procWakeup k p).currentProc = k.currentProc := by
  rw [procWakeup]
  split_ifs <;> exact ⟨rfl, rfl, rfl⟩

/-- The state in which `ipc_send` has queued its message, given the slot it took. -/
def queuedState (k : Kernel) (target : ProcIndex) (m : MsgIndex) (type : Word32)
    (data : Option (ℕ → Byte)) (len : Word32) : Kernel :=
  enqueue
    (setMessage
      (setMessage { k with msgUsed := Function.update k.msgUsed m true } m fun message ↦
        { message with next := none })
      m (filledMessage k.currentPid type data len))
    target m

/-- All that `ipc_send` can do: fail with nothing changed, for the reason its result names, or take
a free slot, fill it and queue it. -/
theorem ipcSend_cases (k : Kernel) (dst : Pid) (type : Word32) (data : Option (ℕ → Byte))
    (len : Word32) :
    (procFind k dst = none ∧ ipcSend k dst type data len = (-esrch, k)) ∨
      ∃ target, procFind k dst = some target ∧
        ((256 < len.toNat ∧ ipcSend k dst type data len = (-einval, k)) ∨
          (len.toNat ≤ 256 ∧ (∀ m, k.msgUsed m = true) ∧
            ipcSend k dst type data len = (-enomem, k)) ∨
          (len.toNat ≤ 256 ∧ ∃ m, k.msgUsed m = false ∧
            ipcSend k dst type data len =
              (0, procWakeup (queuedState k target m type data len) target))) := by
  cases hfind : procFind k dst with
  | none =>
    left
    exact ⟨rfl, by simp only [ipcSend, hfind]⟩
  | some target =>
    right
    refine ⟨target, rfl, ?_⟩
    by_cases hlong : 256#32 < len
    · left
      exact ⟨hlong, by simp only [ipcSend, hfind, if_pos hlong]⟩
    · right
      have hshort : len.toNat ≤ 256 := by
        rw [BitVec.lt_def] at hlong
        simpa using hlong
      cases hslot : (List.finRange ipcPoolSize).find? fun i ↦ !k.msgUsed i with
      | none =>
        left
        refine ⟨hshort, fun m ↦ ?_, ?_⟩
        · simpa using List.find?_eq_none.mp hslot m (List.mem_finRange m)
        · simp only [ipcSend, hfind, if_neg hlong, msgAlloc, hslot]
      | some m =>
        right
        refine ⟨hshort, m, by simpa using List.find?_some hslot, ?_⟩
        simp only [ipcSend, hfind, if_neg hlong, msgAlloc, hslot]
        congr 1
        split_ifs with hsleeping
        · rfl
        · exact (if_neg hsleeping).symm

/-- A pass of `ipc_recv` that returns changes nothing, or takes the head of the caller's queue. -/
theorem ipcRecv_returned_cases {k next : Kernel} {out message : Option IpcMessage} {result : ℤ}
    (hrecv : ipcRecv k out = .returned result message next) :
    (result = -einval ∧ next = k) ∨ ∃ current m buffer, k.currentProc = some current ∧
      (k.procTable current).msgQueue = some m ∧ out = some buffer ∧ result = 0 ∧
        message = some (dequeue k current m buffer).1 ∧ next = (dequeue k current m buffer).2 := by
  cases hcurrent : k.currentProc with
  | none =>
    left
    simp only [ipcRecv, hcurrent, RecvPass.returned.injEq] at hrecv
    exact ⟨hrecv.1.symm, hrecv.2.2.symm⟩
  | some current =>
    cases out with
    | none =>
      left
      simp only [ipcRecv, hcurrent, RecvPass.returned.injEq] at hrecv
      exact ⟨hrecv.1.symm, hrecv.2.2.symm⟩
    | some buffer =>
      right
      cases hqueue : (k.procTable current).msgQueue with
      | none => simp [ipcRecv, hcurrent, hqueue] at hrecv
      | some m =>
        simp only [ipcRecv, hcurrent, hqueue, RecvPass.returned.injEq] at hrecv
        exact ⟨current, m, buffer, rfl, hqueue, rfl, hrecv.1.symm, hrecv.2.1.symm, hrecv.2.2.symm⟩

/-- A pass of `ipc_recv` that finds the caller's queue empty is `proc_sleep(10)`. -/
theorem ipcRecv_slept {k next : Kernel} {out : Option IpcMessage} {switch : Option ContextSwitch}
    (hrecv : ipcRecv k out = .slept next switch) : procSleep k 10#64 = (next, switch) := by
  cases hcurrent : k.currentProc with
  | none => simp [ipcRecv, hcurrent] at hrecv
  | some current =>
    cases out with
    | none => simp [ipcRecv, hcurrent] at hrecv
    | some out =>
      cases hqueue : (k.procTable current).msgQueue with
      | none =>
        simp only [ipcRecv, hcurrent, hqueue, RecvPass.slept.injEq] at hrecv
        exact Prod.ext hrecv.1 hrecv.2
      | some m => simp [ipcRecv, hcurrent, hqueue] at hrecv

/-! ### What sending and receiving do to the pool -/

section Enqueue

variable (k : Kernel) (target i : ProcIndex) (m slot : MsgIndex)

/-- A field of a process that queueing does not write is unchanged. -/
theorem enqueue_field {α : Type*} (field : Process → α)
    (hqueue : ∀ process queue, field { process with msgQueue := queue } = field process)
    (htail : ∀ process tail, field { process with msgTail := tail } = field process)
    (hcount : ∀ process count, field { process with msgCount := count } = field process) :
    field ((enqueue k target m).procTable i) = field (k.procTable i) := by
  rw [enqueue, Kernel.modify_field _ target i _ field fun _ ↦ hcount _ _]
  cases htarget : ((setMessage k m fun message ↦ { message with next := none }).procTable
    target).msgTail with
  | none =>
    refine Kernel.modify_field _ target i _ field fun process ↦ ?_
    exact (htail { process with msgQueue := some m } (some m)).trans (hqueue process (some m))
  | some tail => exact Kernel.modify_field _ target i _ field fun _ ↦ htail _ _

theorem enqueue_frame : (enqueue k target m).msgUsed = k.msgUsed ∧
    (enqueue k target m).currentProc = k.currentProc ∧
      (enqueue k target m).nextPid = k.nextPid := by
  simp only [enqueue]
  cases htarget : ((setMessage k m fun message ↦ { message with next := none }).procTable
    target).msgTail <;> exact ⟨rfl, rfl, rfl⟩

theorem enqueue_msgQueue : ((enqueue k target m).procTable i).msgQueue =
    if i = target ∧ (k.procTable target).msgTail = none then some m
    else (k.procTable i).msgQueue := by
  simp only [enqueue, setMessage_procTable]
  cases htarget : (k.procTable target).msgTail <;> by_cases heq : i = target <;> simp [heq]

theorem enqueue_msgTail : ((enqueue k target m).procTable i).msgTail =
    if i = target then some m else (k.procTable i).msgTail := by
  simp only [enqueue, setMessage_procTable]
  cases htarget : (k.procTable target).msgTail <;> by_cases heq : i = target <;> simp [heq]

theorem enqueue_msgCount : ((enqueue k target m).procTable i).msgCount =
    if i = target then (k.procTable i).msgCount + 1#32 else (k.procTable i).msgCount := by
  simp only [enqueue, setMessage_procTable]
  cases htarget : (k.procTable target).msgTail <;> by_cases heq : i = target <;> simp [heq]

/-- The slots after queueing: the new one ends the list, the old tail points to it. -/
theorem enqueue_msgPool (htail : (k.procTable target).msgTail ≠ some m) :
    (enqueue k target m).msgPool slot =
      if slot = m then { k.msgPool m with next := none }
      else if (k.procTable target).msgTail = some slot then
        { k.msgPool slot with next := some m }
      else k.msgPool slot := by
  simp only [enqueue, setMessage_procTable]
  cases htarget : (k.procTable target).msgTail with
  | none => by_cases heq : slot = m <;> simp [heq]
  | some tail =>
    rw [htarget] at htail
    have hne : tail ≠ m := fun h ↦ htail (by rw [h])
    by_cases heq : slot = m
    · simp [heq, hne.symm]
    · by_cases htail : slot = tail
      · simp [htail, hne]
      · simp [heq, htail, Ne.symm htail]

end Enqueue

section QueuedState

variable (k : Kernel) (target i : ProcIndex) (m slot : MsgIndex) (type : Word32)
  (data : Option (ℕ → Byte)) (len : Word32)

/-- The pool after a send. Assumes: the slot taken is not the target's tail. -/
theorem queuedState_msgPool (htail : (k.procTable target).msgTail ≠ some m) :
    (queuedState k target m type data len).msgPool slot =
      if slot = m then
        { filledMessage k.currentPid type data len { k.msgPool m with next := none } with
          next := none }
      else if (k.procTable target).msgTail = some slot then
        { k.msgPool slot with next := some m }
      else k.msgPool slot := by
  rw [queuedState, enqueue_msgPool]
  · simp only [setMessage_procTable, setMessage_msgPool_self]
    by_cases heq : slot = m
    · simp [heq]
    · simp [heq]
  · exact htail

/-- A field of a process that a send does not write is unchanged. -/
theorem queuedState_field {α : Type*} (field : Process → α)
    (hqueue : ∀ process queue, field { process with msgQueue := queue } = field process)
    (htail : ∀ process tail, field { process with msgTail := tail } = field process)
    (hcount : ∀ process count, field { process with msgCount := count } = field process) :
    field ((queuedState k target m type data len).procTable i) = field (k.procTable i) :=
  enqueue_field _ target i m field hqueue htail hcount

theorem queuedState_frame :
    (queuedState k target m type data len).msgUsed = Function.update k.msgUsed m true ∧
      (queuedState k target m type data len).currentProc = k.currentProc ∧
      (queuedState k target m type data len).nextPid = k.nextPid :=
  enqueue_frame _ target m

theorem pid_queuedState :
    ((queuedState k target m type data len).procTable i).pid = (k.procTable i).pid :=
  queuedState_field k target i m type data len Process.pid (fun _ _ ↦ rfl) (fun _ _ ↦ rfl)
    (fun _ _ ↦ rfl)

theorem state_queuedState :
    ((queuedState k target m type data len).procTable i).state = (k.procTable i).state :=
  queuedState_field k target i m type data len Process.state (fun _ _ ↦ rfl) (fun _ _ ↦ rfl)
    (fun _ _ ↦ rfl)

end QueuedState

section Dequeue

variable (k : Kernel) (current i : ProcIndex) (m : MsgIndex) (out : IpcMessage)

theorem dequeue_message : (dequeue k current m out).1 = receivedMessage (k.msgPool m) out := by
  simp only [dequeue]
  split_ifs <;> rfl

theorem dequeue_frame : (dequeue k current m out).2.msgPool = k.msgPool ∧
    (dequeue k current m out).2.msgUsed = Function.update k.msgUsed m false ∧
      (dequeue k current m out).2.currentProc = k.currentProc ∧
        (dequeue k current m out).2.nextPid = k.nextPid := by
  simp only [dequeue]
  split_ifs <;> exact ⟨rfl, rfl, rfl, rfl⟩

/-- A field of a process that unlinking does not write is unchanged. -/
theorem dequeue_field {α : Type*} (field : Process → α)
    (hqueue : ∀ process queue, field { process with msgQueue := queue } = field process)
    (htail : ∀ process tail, field { process with msgTail := tail } = field process)
    (hcount : ∀ process count, field { process with msgCount := count } = field process) :
    field ((dequeue k current m out).2.procTable i) = field (k.procTable i) := by
  simp only [dequeue, msgFree]
  rw [Kernel.modify_field _ current i _ field fun _ ↦ hcount _ _]
  split_ifs
  · rw [Kernel.modify_field _ current i _ field fun _ ↦ htail _ _]
    exact Kernel.modify_field _ current i _ field fun _ ↦ hqueue _ _
  · exact Kernel.modify_field _ current i _ field fun _ ↦ hqueue _ _

theorem dequeue_msgQueue : ((dequeue k current m out).2.procTable i).msgQueue =
    if i = current then (k.msgPool m).next else (k.procTable i).msgQueue := by
  simp only [dequeue, msgFree]
  by_cases heq : i = current <;> split_ifs <;> simp_all

theorem dequeue_msgTail : ((dequeue k current m out).2.procTable i).msgTail =
    if i = current ∧ (k.msgPool m).next = none then none else (k.procTable i).msgTail := by
  simp only [dequeue, msgFree, Kernel.modify_procTable_self]
  by_cases heq : i = current <;> split_ifs <;> simp_all

theorem dequeue_msgCount : ((dequeue k current m out).2.procTable i).msgCount =
    if i = current then (k.procTable i).msgCount - 1#32 else (k.procTable i).msgCount := by
  simp only [dequeue, msgFree]
  by_cases heq : i = current <;> split_ifs <;> simp_all

theorem pid_dequeue :
    ((dequeue k current m out).2.procTable i).pid = (k.procTable i).pid :=
  dequeue_field k current i m out Process.pid (fun _ _ ↦ rfl) (fun _ _ ↦ rfl) fun _ _ ↦ rfl

theorem state_dequeue :
    ((dequeue k current m out).2.procTable i).state = (k.procTable i).state :=
  dequeue_field k current i m out Process.state (fun _ _ ↦ rfl) (fun _ _ ↦ rfl) fun _ _ ↦ rfl

end Dequeue

end Colix.Ipc
