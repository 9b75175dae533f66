import Mathlib.Logic.Function.Basic
import Colix.Types

/-!
# Kernel state

The process table, the IPC message pool and the scheduler's variables, from `include/kernel.h`,
`kernel/proc/proc.c` and `kernel/ipc/ipc.c`. A pointer to a process is an index of the table, a
pointer to a message an index of the pool, and NULL is `none`. The fields `user_mode`, `wait_pid`,
`fds`, `kstack`, `brk` and `tf` of `process_t` are read by no function modelled here and are left
out.
-/

set_option autoImplicit false
set_option relaxedAutoImplicit false

namespace Colix

/-- `PROC_MAX`. -/
abbrev procMax : ℕ := 64

/-- `IPC_MSG_MAX`. -/
abbrev ipcMsgMax : ℕ := 256

/-- `IPC_POOL_SIZE`. -/
abbrev ipcPoolSize : ℕ := 128

/-- `KSTACK_SIZE`: four pages. -/
abbrev kstackSize : Word := 16384#64

/-- `PIT_HZ`. -/
abbrev pitHz : Word := 100#64

/-- A pointer into `proc_table`. -/
abbrev ProcIndex := Fin procMax

instance : NeZero procMax := ⟨by decide⟩

/-- A pointer into `msg_pool`. -/
abbrev MsgIndex := Fin ipcPoolSize

/-- `proc_state_t`. -/
inductive ProcState
  | unused
  | ready
  | running
  | sleeping
  | waiting
  | zombie
  deriving DecidableEq, Repr

/-- `cpu_context_t`. -/
structure CpuContext where
  r15 : Word
  r14 : Word
  r13 : Word
  r12 : Word
  rbx : Word
  rbp : Word
  rip : Word
  rsp : Word
  deriving DecidableEq

/-- `process_t`. -/
structure Process where
  pid : Pid
  ppid : Pid
  state : ProcState
  exitCode : Int32
  pml4 : Word
  context : CpuContext
  kernelRsp : Word
  sleepTicks : Word
  msgQueue : Option MsgIndex
  msgTail : Option MsgIndex
  msgCount : Word32
  name : List Byte
  cr3 : Word
  isUser : Bool
  started : Bool
  userRip : Word
  userRsp : Word
  userSp : Word

/-- `ipc_message_t`. The field `from` is `fromPid`. -/
structure IpcMessage where
  fromPid : Pid
  type : Word32
  len : Word32
  data : Fin ipcMsgMax → Byte
  next : Option MsgIndex

/-- The variables of `proc.c` and `ipc.c`, with `tss.rsp[0]`. -/
structure Kernel where
  procTable : ProcIndex → Process
  currentProc : Option ProcIndex
  ticks : Word
  nextPid : Pid
  tssRsp0 : Word
  msgPool : MsgIndex → IpcMessage
  msgUsed : MsgIndex → Bool

/-- A process entry of all zero bytes, as `memset` and `.bss` leave it. -/
def Process.zero : Process where
  pid := 0
  ppid := 0
  state := .unused
  exitCode := 0
  pml4 := 0#64
  context := ⟨0#64, 0#64, 0#64, 0#64, 0#64, 0#64, 0#64, 0#64⟩
  kernelRsp := 0#64
  sleepTicks := 0#64
  msgQueue := none
  msgTail := none
  msgCount := 0#32
  name := []
  cr3 := 0#64
  isUser := false
  started := false
  userRip := 0#64
  userRsp := 0#64
  userSp := 0#64

/-- A message of all zero bytes. -/
def IpcMessage.zero : IpcMessage where
  fromPid := 0
  type := 0#32
  len := 0#32
  data := fun _ ↦ 0#8
  next := none

/-- The state the program starts in: `.bss` is zero and `next_pid` is one. -/
def Kernel.bss : Kernel where
  procTable := fun _ ↦ .zero
  currentProc := none
  ticks := 0#64
  nextPid := 1
  tssRsp0 := 0#64
  msgPool := fun _ ↦ .zero
  msgUsed := fun _ ↦ false

namespace Kernel

variable (k : Kernel) (i j : ProcIndex) (f : Process → Process)

/-- Writes to fields of one process entry. -/
def modify : Kernel :=
  { k with procTable := Function.update k.procTable i (f (k.procTable i)) }

/-- `current_proc ? current_proc->pid : 0`. -/
def currentPid : Pid :=
  match k.currentProc with
  | some current => (k.procTable current).pid
  | none => 0

@[simp] theorem modify_procTable_self : (k.modify i f).procTable i = f (k.procTable i) :=
  Function.update_self ..

@[simp] theorem modify_procTable_of_ne {i j : ProcIndex} (hne : j ≠ i) :
    (k.modify i f).procTable j = k.procTable j :=
  Function.update_of_ne hne ..

@[simp] theorem modify_currentProc : (k.modify i f).currentProc = k.currentProc := rfl

@[simp] theorem modify_ticks : (k.modify i f).ticks = k.ticks := rfl

@[simp] theorem modify_nextPid : (k.modify i f).nextPid = k.nextPid := rfl

@[simp] theorem modify_tssRsp0 : (k.modify i f).tssRsp0 = k.tssRsp0 := rfl

@[simp] theorem modify_msgPool : (k.modify i f).msgPool = k.msgPool := rfl

@[simp] theorem modify_msgUsed : (k.modify i f).msgUsed = k.msgUsed := rfl

/-- A field that the writes leave alone is unchanged in every entry. -/
theorem modify_field {α : Type*} (field : Process → α)
    (hkeep : ∀ process, field (f process) = field process) :
    field ((k.modify i f).procTable j) = field (k.procTable j) := by
  by_cases heq : j = i
  · rw [heq, modify_procTable_self, hkeep]
  · rw [modify_procTable_of_ne k f heq]

end Kernel

end Colix
