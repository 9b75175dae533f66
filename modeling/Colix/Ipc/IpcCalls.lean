import Colix.Ipc.IpcRun

/-!
# Runs of calls

`callSystem` runs the kernel on calls as their callers make them: a step is a call with its
arguments, among them sends with NULL data and receives that find nothing, and the call decides the
next state. A send with NULL data does what a send of the bytes already in its slot does
(`queuedState_none`), so the queues keep their invariant on these runs too.
-/

set_option autoImplicit false
set_option relaxedAutoImplicit false

namespace Colix.Ipc

open Foundation Proc

/-- A step of a run, by what its caller gives: a send or a pass of a receive by the current process,
another call, or the processor going to a process. -/
inductive IpcCall
  | send (dst : Pid) (type : Word32) (data : Option (ℕ → Byte)) (len : Word32)
  | recv (out : Option IpcMessage)
  | call (kernelCall : KernelCall)
  | resume (p : ProcIndex)

/-- The state after a step. An entry that is no process cannot be resumed. -/
def IpcCall.perform (entryPoints : EntryPoints) (k : Kernel) : IpcCall → Kernel
  | .send dst type data len => (ipcSend k dst type data len).2
  | .recv out => (ipcRecv k out).kernel
  | .call kernelCall => (kernelCall.perform entryPoints k).1
  | .resume p => if (k.procTable p).state = .unused then k else { k with currentProc := some p }

/-- Runs of the kernel with the calls made as labels. -/
def callSystem (entryPoints : EntryPoints) : TransitionSystem Kernel IpcCall where
  start := (ipcSystem entryPoints).start
  step k call next := call.perform entryPoints k = next

/-- The admission check of `ipc_send` on a process: the length is in range and a slot is free. -/
def Admits (k : Kernel) (len : Word32) : Prop :=
  len.toNat ≤ 256 ∧ ∃ m, k.msgUsed m = false

variable {k next : Kernel} {calls : List IpcCall} {entryPoints : EntryPoints}

/-- The kernel with another message pool. -/
def withPool (k : Kernel) (pool : MsgIndex → IpcMessage) : Kernel :=
  { k with msgPool := pool }

/-- All that a send can do, whatever its data and the pool: leave the state as it is, when it has no
target or is not admitted, or queue its message in the same slot. -/
theorem ipcSend_withPool_cases (k : Kernel) (dst : Pid) (type len : Word32) :
    ((∀ target, procFind k dst = some target → ¬ Admits k len) ∧ ∀ pool data,
        (ipcSend (withPool k pool) dst type data len).2 = withPool k pool) ∨
      ∃ target m, procFind k dst = some target ∧ len.toNat ≤ 256 ∧ k.msgUsed m = false ∧
        ∀ pool data, (ipcSend (withPool k pool) dst type data len).2 =
          procWakeup (queuedState (withPool k pool) target m type data len) target := by
  cases hfind : procFind k dst with
  | none =>
    refine Or.inl ⟨fun _ htarget ↦ ?_, fun pool data ↦ ?_⟩
    · cases htarget
    · have hfind' : procFind (withPool k pool) dst = none := hfind
      simp only [ipcSend, hfind']
  | some target =>
    have hfind' : ∀ pool, procFind (withPool k pool) dst = some target := fun _ ↦ hfind
    by_cases hlong : 256#32 < len
    · refine Or.inl ⟨fun _ _ hadmits ↦ ?_,
        fun pool data ↦ by simp only [ipcSend, hfind', if_pos hlong]⟩
      exact absurd (BitVec.lt_def.mp hlong) (not_lt.mpr hadmits.1)
    · have hshort : len.toNat ≤ 256 := by
        rw [BitVec.lt_def] at hlong
        simpa using hlong
      cases hslot : (List.finRange ipcPoolSize).find? fun i ↦ !k.msgUsed i with
      | none =>
        refine Or.inl ⟨fun _ _ hadmits ↦ ?_, fun pool data ↦ ?_⟩
        · obtain ⟨-, m, hunused⟩ := hadmits
          have hused := List.find?_eq_none.mp hslot m (List.mem_finRange m)
          rw [hunused] at hused
          exact hused rfl
        · have hslot' : ((List.finRange ipcPoolSize).find? fun i ↦ !(withPool k pool).msgUsed i) =
              none := hslot
          simp only [ipcSend, hfind', if_neg hlong, msgAlloc, hslot']
      | some m =>
        refine Or.inr ⟨target, m, rfl, hshort, by simpa using List.find?_some hslot,
          fun pool data ↦ ?_⟩
        have hslot' : ((List.finRange ipcPoolSize).find? fun i ↦ !(withPool k pool).msgUsed i) =
            some m := hslot
        simp only [ipcSend, hfind', if_neg hlong, msgAlloc, hslot']
        split_ifs with hsleeping
        · rfl
        · exact (if_neg hsleeping).symm

/-- The same for the pool as it is. -/
theorem ipcSend_state_cases (k : Kernel) (dst : Pid) (type : Word32) (data : Option (ℕ → Byte))
    (len : Word32) :
    ((∀ target, procFind k dst = some target → ¬ Admits k len) ∧
        (ipcSend k dst type data len).2 = k) ∨
      ∃ target m, procFind k dst = some target ∧ len.toNat ≤ 256 ∧ k.msgUsed m = false ∧
        (ipcSend k dst type data len).2 =
          procWakeup (queuedState k target m type data len) target := by
  rcases ipcSend_withPool_cases k dst type len with ⟨hrefused, hsame⟩ |
    ⟨target, m, htarget, hlen, hunused, hqueued⟩
  · exact Or.inl ⟨hrefused, hsame k.msgPool data⟩
  · exact Or.inr ⟨target, m, htarget, hlen, hunused, hqueued k.msgPool data⟩

/-- A message filled from NULL data holds the bytes the slot held. -/
theorem filledMessage_none (sender : Pid) (type len : Word32) (message : IpcMessage) :
    filledMessage sender type none len message =
      filledMessage sender type (some (messageByte message)) len message := by
  have hdata : copyData message.data (messageByte message) len = message.data := by
    funext i
    simp [copyData, messageByte]
  simp only [filledMessage, hdata, ite_self]

/-- A send with NULL data does what a send of the bytes already in its slot does. -/
theorem queuedState_none (k : Kernel) (target : ProcIndex) (m : MsgIndex) (type len : Word32) :
    queuedState k target m type none len =
      queuedState k target m type (some (messageByte (k.msgPool m))) len := by
  rw [queuedState, queuedState, setMessage, setMessage_msgPool_self, filledMessage_none]
  simp only [setMessage, Function.update_self]
  rfl

/-! ### The queues along runs of calls -/

/-- The queues are in order, whatever the history. -/
def QueuesInOrder (k : Kernel) : Prop :=
  ∃ events, IpcInvariant events k

/-- Queueing a message keeps the queues in order, whatever its data. -/
theorem QueuesInOrder.queued (horder : QueuesInOrder k) {dst : Pid} {target : ProcIndex}
    {m : MsgIndex} (htarget : procFind k dst = some target) (hunused : k.msgUsed m = false)
    (type : Word32) (data : Option (ℕ → Byte)) {len : Word32} (hlen : len.toNat ≤ 256) :
    QueuesInOrder (queuedState k target m type data len) := by
  obtain ⟨events, hinv⟩ := horder
  cases data with
  | none =>
    rw [queuedState_none]
    exact ⟨_, hinv.queued type htarget hunused hlen fun _ ↦ Option.some_ne_none _⟩
  | some src => exact ⟨_, hinv.queued type htarget hunused hlen fun _ ↦ Option.some_ne_none src⟩

/-- A step of a run of calls keeps the queues in order. -/
theorem QueuesInOrder.perform (horder : QueuesInOrder k) (entryPoints : EntryPoints)
    (call : IpcCall) : QueuesInOrder (call.perform entryPoints k) := by
  obtain ⟨events, hinv⟩ := horder
  have hmatched : ∀ event, (ipcSystem entryPoints).step k event (call.perform entryPoints k) →
      QueuesInOrder (call.perform entryPoints k) := fun event hstep ↦ ⟨_, hinv.step hstep⟩
  cases call with
  | send dst type data len =>
    rw [IpcCall.perform]
    rcases ipcSend_state_cases k dst type data len with ⟨-, hsame⟩ |
      ⟨target, m, htarget, hlen, hunused, hqueued⟩
    · rw [hsame]
      exact ⟨events, hinv⟩
    · rw [hqueued]
      obtain ⟨events', hinv'⟩ :=
        QueuesInOrder.queued ⟨events, hinv⟩ htarget hunused type data hlen
      exact ⟨events', hinv'.kept (processesKept_procWakeup hinv'.pids.current target)⟩
  | recv out =>
    rw [IpcCall.perform]
    cases hrecv : ipcRecv k out with
    | returned result message after =>
      rcases ipcRecv_returned_cases hrecv with ⟨-, rfl⟩ |
        ⟨current, m, buffer, hcurrent, hhead, -, -, -, rfl⟩
      · exact ⟨events, hinv⟩
      · exact ⟨_, hinv.dequeued hcurrent hhead⟩
    | slept after switch =>
      have hsleep : (procSleep k 10#64).1 = after := congrArg Prod.fst (ipcRecv_slept hrecv)
      exact ⟨events, hinv.kept (hsleep ▸ processesKept_procSleep hinv.pids.current 10#64)⟩
  | call kernelCall => exact hmatched (.call kernelCall) rfl
  | resume p =>
    rw [IpcCall.perform] at hmatched ⊢
    by_cases hunused : (k.procTable p).state = .unused
    · rw [if_pos hunused]
      exact ⟨events, hinv⟩
    · rw [if_neg hunused] at hmatched ⊢
      exact hmatched (.resume p) ⟨hunused, rfl⟩

/-- The queues are in order in every state that a run of calls reaches. -/
theorem QueuesInOrder.of_run (hrun : (callSystem entryPoints).Run calls k) : QueuesInOrder k := by
  refine hrun.invariant (motive := QueuesInOrder) ?_ ?_
  · intro state hstart
    have hmain : (ipcSystem entryPoints).start state := hstart
    exact ⟨[], IpcInvariant.start hmain⟩
  · rintro state call _ horder rfl
    exact horder.perform entryPoints call

end Colix.Ipc
