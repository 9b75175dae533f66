import Colix.Lib.Rendering
import Colix.Proc.Sleep

/-!
# System calls

`kernel/proc/syscall.c`: `syscall_handler`, which `interrupt_dispatch` calls on `int 0x80` with the
registers saved in the frame. A call that gives up the processor leaves the rest of its work for the
time its process runs again. What the kernel state sees of a call is one event of the scheduler or
nothing (`syscallHandler_kernel`).
-/

set_option autoImplicit false
set_option relaxedAutoImplicit false

namespace Colix.Proc

open Foundation Ipc Lib

/-! ### The source -/

/-- `ENOSYS`, and the 9 of `EBADF`. -/
abbrev enosys : ℤ := 38
abbrev ebadf : ℤ := 9

/-- The numbers in `include/syscall_num.h` that have a handler. -/
abbrev sysExit : Word := 1#64
abbrev sysWrite : Word := 4#64
abbrev sysGetpid : Word := 20#64
abbrev sysYield : Word := 24#64
abbrev sysGetppid : Word := 64#64
abbrev sysSleep : Word := 162#64
abbrev sysIpcSend : Word := 200#64
abbrev sysIpcRecv : Word := 201#64

/-- The arguments of `syscall_handler`, with the memory that the caller's pointers lead to. -/
structure SystemCall where
  num : Word
  a1 : Word
  a2 : Word
  a3 : Word
  a4 : Word
  a5 : Word
  memory : Word → Byte

namespace SystemCall

variable (call : SystemCall)

/-- `(int)a1`, as an exit code and as a file descriptor. -/
def code : Int32 :=
  Int32.ofBitVec (call.a1.setWidth 32)

/-- `(pid_t)a1`. -/
def dst : Pid :=
  Int32.ofBitVec (call.a1.setWidth 32)

/-- `(uint32_t)a2`. -/
def type : Word32 :=
  call.a2.setWidth 32

/-- `(const void*)a3`. -/
def data : Option (ℕ → Byte) :=
  if call.a3 = 0#64 then none else some fun i ↦ call.memory (call.a3 + BitVec.ofNat 64 i)

/-- `(uint32_t)a4`. -/
def len : Word32 :=
  call.a4.setWidth 32

/-- `(ipc_message_t*)a1`: the data in the buffer, whose other fields `ipc_recv` overwrites. -/
def out : Option IpcMessage :=
  if call.a1 = 0#64 then none
  else some { IpcMessage.zero with
    data := fun i ↦ call.memory (call.a1 + 12#64 + BitVec.ofNat 64 i) }

/-- The bytes `buf[0]` to `buf[len - 1]` of a write. -/
def written : List Byte :=
  (List.range call.a3.toNat).map fun i ↦ call.memory (call.a2 + BitVec.ofNat 64 i)

end SystemCall

/-- `current_proc ? current_proc->ppid : 0`. -/
def currentPpid (k : Kernel) : Pid :=
  match k.currentProc with
  | some current => (k.procTable current).ppid
  | none => 0

/-- A pid or an error code as the 64-bit value returned. -/
def returnValue (n : ℤ) : Word :=
  BitVec.ofInt 64 n

/-- What a call returns to its caller: `rax`, and the message in the caller's buffer. -/
structure Answer where
  value : Word
  received : Option IpcMessage

/-- What is left of a call when its process runs again: to return a value, or to come round the loop
of `ipc_recv`. -/
inductive Rest
  | value (value : Word)
  | receive

/-- How the handler leaves a call: answered, or with a rest when another process runs on. -/
inductive CallOutcome
  | answered (answer : Answer)
  | left (rest : Rest)

/-- The state a handler leaves, what it has printed, and how it leaves the call. -/
structure Handled where
  kernel : Kernel
  printed : List Byte
  outcome : CallOutcome

/-- `kprintf("[SYSCALL] SYS_WRITE\n")`. -/
def writeNotice : List Byte :=
  constant "[SYSCALL] SYS_WRITE\n"

/-- `kprintf("[SYSCALL] unknown syscall %lu\n", num)`. -/
def unknownNotice (num : Word) : List Byte :=
  constant "[SYSCALL] unknown syscall " ++ numeral 10 num.toNat ++ constant "\n"

/-- `kprintf("[PROC] pid=%d exited code=%d\n", current_proc->pid, code)`, where `widen` says how an
`int` argument is read as an `int64_t`. -/
def exitNotice (widen : Int32 → Word) (pid : Pid) (code : Int32) : List Byte :=
  constant "[PROC] pid=" ++ signedNumeral (widen pid).toInt ++ constant " exited code=" ++
    signedNumeral (widen code).toInt ++ constant "\n"

/-- What `proc_exit` prints. -/
def procExitPrinted (widen : Int32 → Word) (k : Kernel) (code : Int32) : List Byte :=
  match k.currentProc with
  | none => []
  | some current => exitNotice widen (k.procTable current).pid code

/-- A call that returns 0 behind a call of `schedule`. -/
def afterSchedule (result : Kernel × Option ContextSwitch) (printed : List Byte) : Handled :=
  match result.2 with
  | some _ => ⟨result.1, printed, .left (.value 0#64)⟩
  | none => ⟨result.1, printed, .answered ⟨0#64, none⟩⟩

/-- A pass of `ipc_recv`, from the handler or when the process runs again. -/
def receivePass (k : Kernel) (call : SystemCall) : Handled :=
  match ipcRecv k call.out with
  | .returned result message next => ⟨next, [], .answered ⟨returnValue result, message⟩⟩
  | .slept next _ => ⟨next, [], .left .receive⟩

/-- `SYS_WRITE`. -/
def sysWriteHandler (k : Kernel) (call : SystemCall) : Handled :=
  if call.code = 1 ∨ call.code = 2 then
    ⟨k, writeNotice ++ call.written, .answered ⟨call.a3, none⟩⟩
  else ⟨k, writeNotice, .answered ⟨returnValue (-ebadf), none⟩⟩

/-- `syscall_handler`. -/
def syscallHandler (widen : Int32 → Word) (k : Kernel) (call : SystemCall) : Handled :=
  if call.num = sysExit then
    afterSchedule (procExit k call.code) (procExitPrinted widen k call.code)
  else if call.num = sysWrite then sysWriteHandler k call
  else if call.num = sysGetpid then
    ⟨k, [], .answered ⟨returnValue k.currentPid.toInt, none⟩⟩
  else if call.num = sysGetppid then
    ⟨k, [], .answered ⟨returnValue (currentPpid k).toInt, none⟩⟩
  else if call.num = sysYield then afterSchedule (procYield k) []
  else if call.num = sysSleep then afterSchedule (procSleep k call.a1) []
  else if call.num = sysIpcSend then
    let (result, next) := ipcSend k call.dst call.type call.data call.len
    ⟨next, [], .answered ⟨returnValue result, none⟩⟩
  else if call.num = sysIpcRecv then receivePass k call
  else ⟨k, unknownNotice call.num, .answered ⟨returnValue (-enosys), none⟩⟩

/-- The rest of a call, once its process runs again. -/
def resumeCall (k : Kernel) (call : SystemCall) : Rest → Handled
  | .value value => ⟨k, [], .answered ⟨value, none⟩⟩
  | .receive => receivePass k call

/-! ### What the kernel state sees -/

section Kernel

variable {k : Kernel} {idle : ProcIndex} {call : SystemCall} {widen : Int32 → Word}

theorem afterSchedule_kernel (result : Kernel × Option ContextSwitch) (printed : List Byte) :
    (afterSchedule result printed).kernel = result.1 := by
  rw [afterSchedule]
  cases result.2 with
  | some switch => rfl
  | none => rfl

theorem receivePass_kernel (k : Kernel) (call : SystemCall) :
    (receivePass k call).kernel = (ipcRecv k call.out).kernel := by
  rw [receivePass]
  cases ipcRecv k call.out with
  | returned result message next => rfl
  | slept next switch => rfl

/-- The events of the scheduler that system calls make. -/
inductive FromCall : SchedulerEvent → Prop
  | exit (code : Int32) : FromCall (.call (.exit code))
  | yield : FromCall (.call .yield)
  | sleep (ms : Word) : FromCall (.call (.sleep ms))
  | send (dst : Pid) (type : Word32) (data : Option (ℕ → Byte)) (len : Word32) :
      FromCall (.send dst type data len)
  | recv (out : Option IpcMessage) : FromCall (.recv out)

theorem FromCall.isTick {event : SchedulerEvent} (hevent : FromCall event) :
    event.isTick = false := by
  cases hevent <;> rfl

/-- A part of a call is one event of the scheduler, or leaves the kernel state alone. -/
def SchedulerPart (entryPoints : EntryPoints) (idle : ProcIndex) (k : Kernel) (handled : Handled) :
    Prop :=
  handled.kernel = k ∨ ∃ event, FromCall event ∧
    (schedulerSystem entryPoints idle).step k event handled.kernel

theorem schedulerPart_receivePass (entryPoints : EntryPoints) (hne : k.currentProc ≠ some idle)
    (call : SystemCall) : SchedulerPart entryPoints idle k (receivePass k call) :=
  Or.inr ⟨_, .recv call.out, hne, (receivePass_kernel k call).symm⟩

theorem syscallHandler_kernel (entryPoints : EntryPoints) (hne : k.currentProc ≠ some idle)
    (widen : Int32 → Word) (call : SystemCall) :
    SchedulerPart entryPoints idle k (syscallHandler widen k call) := by
  rw [syscallHandler]
  split_ifs
  · exact Or.inr ⟨_, .exit call.code, Or.inr hne, (afterSchedule_kernel ..).symm⟩
  · rw [sysWriteHandler]
    split_ifs
    · exact Or.inl rfl
    · exact Or.inl rfl
  · exact Or.inl rfl
  · exact Or.inl rfl
  · exact Or.inr ⟨_, .yield, Or.inr hne, (afterSchedule_kernel ..).symm⟩
  · exact Or.inr ⟨_, .sleep call.a1, Or.inr hne, (afterSchedule_kernel ..).symm⟩
  · exact Or.inr ⟨_, .send call.dst call.type call.data call.len, hne, rfl⟩
  · exact schedulerPart_receivePass entryPoints hne call
  · exact Or.inl rfl

theorem resumeCall_kernel (entryPoints : EntryPoints) (hne : k.currentProc ≠ some idle)
    (call : SystemCall) (rest : Rest) :
    SchedulerPart entryPoints idle k (resumeCall k call rest) := by
  cases rest with
  | value value => exact Or.inl rfl
  | receive => exact schedulerPart_receivePass entryPoints hne call

end Kernel

end Colix.Proc
