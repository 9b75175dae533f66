import Colix.Arch.ContextRun
import Colix.Arch.InterruptStub
import Colix.Ipc.Ipc

/-!
# Interrupts and process switches

Any number of processes, each with a kernel stack and a saved context of its own, on one processor.
IRQs arrive at any instruction of user code, of the kernel's C code, of `switch_context` and of the
way out of an interrupt, on top of one another, and system calls from user code and C code. The
kernel's C code is any code that keeps to its own part of its stack. The way in, the way out and
`switch_context` are the instructions of the assembly, and the last two are taken one at a time.

A state has for each process the interrupts that have not returned, with the argument that
`interrupt_dispatch` has and what it took from the frame. It also records the registers and the code
that were interrupted; of that record, only the kind of code that `iretq` goes on with is used. The
stores that the kernel makes where a
caller or a file says, or where the cursor stands, are events of their own, and `Undisturbed` is the
condition on them and on the calls of `switch_context`.
-/

set_option autoImplicit false
set_option relaxedAutoImplicit false

namespace Colix.Arch

open Foundation

/-! ### `switch_context` on the processor -/

/-- The general register of a name. -/
def Reg.gpr : Reg → Gpr
  | .rax => .rax
  | .rbx => .rbx
  | .rdi => .rdi
  | .rsi => .rsi
  | .rbp => .rbp
  | .rsp => .rsp
  | .r12 => .r12
  | .r13 => .r13
  | .r14 => .r14
  | .r15 => .r15

/-- The name that `switch_context` has for a general register. -/
def Gpr.reg? : Gpr → Option Reg
  | .rax => some .rax
  | .rbx => some .rbx
  | .rdi => some .rdi
  | .rsi => some .rsi
  | .rbp => some .rbp
  | .rsp => some .rsp
  | .r12 => some .r12
  | .r13 => some .r13
  | .r14 => some .r14
  | .r15 => some .r15
  | _ => none

/-- The machine of `switch_context` in the processor. -/
def Core.machine (core : Core) : Machine where
  regs r := core.registers.gpr r.gpr
  rip := core.registers.rip
  memory := core.memory

/-- The processor after the machine has moved. The other registers stay. -/
def Core.withMachine (core : Core) (machine : Machine) : Core :=
  { core with
    registers :=
      { core.registers with
        gpr := fun g ↦ g.reg?.elim (core.registers.gpr g) machine.regs
        rip := machine.rip }
    memory := machine.memory }

/-! ### Layout -/

/-- Where the processes' kernel stacks and contexts are. A stack ends behind the word that the first
dispatch of its process writes above its top, and lies apart from the other stacks and from every
context. -/
structure StackLayout (Proc : Type*) extends ContextLayout Proc where
  symbols : IsrSymbols
  bottom : Proc → ℕ
  limit : Proc → ℕ
  kernelRsp : Proc → Word
  IsUser : Proc → Prop
  limit_lt : ∀ p, limit p < 2 ^ 64
  kernelRsp_le : ∀ p, IsUser p → (kernelRsp p).toNat ≤ limit p
  stacks_apart : ∀ p q, p ≠ q → limit p ≤ bottom q ∨ limit q ≤ bottom p
  contexts_apart : ∀ p q, (context q).toNat + contextSize ≤ bottom p ∨
    limit p ≤ (context q).toNat

/-- The address is in the kernel stack of the process. -/
def StackLayout.InStack {Proc : Type*} (layout : StackLayout Proc) (p : Proc) (position : ℕ) :
    Prop :=
  layout.bottom p ≤ position ∧ position < layout.limit p

/-- The address is in the kernel stack or in the saved context of the process. -/
def StackLayout.Owns {Proc : Type*} (layout : StackLayout Proc) (p : Proc) (position : ℕ) : Prop :=
  layout.InStack p position ∨ InContext (layout.context p) position

/-! ### States -/

/-- What the processor executes: user code, C code of the kernel, the instruction of
`switch_context` with this index on the way to `new`, or the instruction with this index of the way
out of an interrupt. -/
inductive Point (Proc : Type*)
  | user
  | code
  | switching (index : ℕ) (new : Proc)
  | exiting (index : ℕ)

/-- The processor is in `switch_context`, behind its first store to a context and before its last
load from one. -/
def Point.Switching {Proc : Type*} : Point Proc → Prop
  | .switching index _ => 1 ≤ index ∧ index ≤ 16
  | _ => False

/-- An interrupt that has not returned: the registers and the code it interrupted, its number, the
argument of `interrupt_dispatch`, what `interrupt_dispatch` took from the frame there, and the
result it has stored in the frame's `rax`. -/
structure Entry (Proc : Type*) where
  saved : Registers
  point : Point Proc
  number : ℕ
  frame : ℕ
  dispatch : Dispatch
  result : Option Word

/-- The registers that the interrupt is to return to. -/
def Entry.returned {Proc : Type*} (entry : Entry Proc) : Registers :=
  match entry.result with
  | none => entry.saved
  | some result => entry.saved.setGpr .rax result

/-- The processor, the process whose code it executes, `tss.rsp[0]`, and for each process the
interrupts that have not returned, the latest first. -/
structure InterruptState (Proc : Type*) where
  core : Core
  running : Proc
  tssRsp0 : Word
  point : Point Proc
  entries : Proc → List (Entry Proc)

/-- What happens: code of the running process works, a process is created, `ipc_recv` copies a
message to its caller's pointer, the loader copies bytes of a segment, `vga_putc` writes a cell, an
interrupt arrives, `interrupt_dispatch` stores a result and returns, the way out of an interrupt
goes on, `switch_context` is called and goes on, or a new user process enters user mode. -/
inductive InterruptEvent (Proc : Type*)
  | work
  | create (p : Proc)
  | receive (out : Word) (message : IpcMessage)
  | loadSegment (dest : ℕ) (bytes : List (BitVec 8))
  | cell (index : ℕ) (value : BitVec 16)
  | interrupt (number : ℕ)
  | setResult (result : Word)
  | dispatchReturn
  | exit
  | iretq
  | callSwitch (old new : Proc)
  | switch
  | enterUser

section System

variable {Proc : Type*}

/-- The lowest address that C code on the stack has to keep: the slot of the return address of the
`interrupt_dispatch` it runs in, or nothing of its stack. -/
def StackLayout.ceiling (layout : StackLayout Proc) (p : Proc) : List (Entry Proc) → ℕ
  | [] => layout.limit p
  | entry :: _ => entry.frame - 8

/-- `SYS_IPC_RECV`. -/
abbrev sysIpcRecv : Word := 201#64

/-- The copy of a message by `ipc_recv`. -/
def storeReceived (memory : Memory) (out : ℕ) (message : IpcMessage) : Memory :=
  let memory := store memory out message.fromPid.toBitVec
  let memory := store memory (out + 4) message.type
  let memory := store memory (out + 8) message.len
  let memory := placeBytes memory (out + 12)
    ((List.range message.len.toNat).map (Ipc.messageByte message))
  store memory (out + 272) 0#64

/-- The bytes that the copy writes: the header, the data and the link. -/
def InReceived (out : ℕ) (message : IpcMessage) (position : ℕ) : Prop :=
  out ≤ position ∧ position < out + 12 + message.len.toNat ∨
    out + 272 ≤ position ∧ position < out + 280

/-- `ret`. -/
def Core.ret (core : Core) : Core :=
  { core with
    registers :=
      { core.registers.setGpr .rsp (core.registers.gpr .rsp + 8#64) with rip := core.top } }

theorem Core.stackPointer_ret {core : Core} (hfits : core.registers.stackPointer + 8 < 2 ^ 64) :
    core.ret.registers.stackPointer = core.registers.stackPointer + 8 := by
  have hgpr : core.ret.registers.gpr .rsp =
      (core.registers.setGpr .rsp (core.registers.gpr .rsp + 8#64)).gpr .rsp := rfl
  rw [Registers.stackPointer, hgpr]
  exact core.registers.stackPointer_add hfits

/-- The processor at the first instruction of `interrupt_dispatch`. No interrupt comes between this
and the reads of the frame: the gates clear IF. -/
def InterruptState.entered (s : InterruptState Proc) (layout : StackLayout Proc) (number : ℕ) :
    Core :=
  s.core.enter layout.symbols s.tssRsp0 number none

/-- The interrupt that the running process takes. -/
def InterruptState.entry (s : InterruptState Proc) (layout : StackLayout Proc) (number : ℕ) :
    Entry Proc where
  saved := s.core.registers
  point := s.point
  number := number
  frame := ((s.entered layout number).registers.gpr .rdi).toNat
  dispatch := interruptDispatch (loadFrame (s.entered layout number).memory
    ((s.entered layout number).registers.gpr .rdi).toNat)
  result := none

theorem InterruptState.dispatch_entry (s : InterruptState Proc) (layout : StackLayout Proc)
    (number : ℕ) : (s.entry layout number).dispatch =
      interruptDispatch (loadFrame (s.entered layout number).memory
        (s.entry layout number).frame) := by
  rw [InterruptState.entry]

/-- An interrupt of the running process. -/
def InterruptState.interrupt [DecidableEq Proc] (layout : StackLayout Proc)
    (s : InterruptState Proc) (number : ℕ) : InterruptState Proc :=
  { s with
    core := s.entered layout number
    point := .code
    entries := Function.update s.entries s.running
      (s.entry layout number :: s.entries s.running) }

@[simp] theorem InterruptState.entries_interrupt [DecidableEq Proc] (layout : StackLayout Proc)
    (s : InterruptState Proc) (number : ℕ) : (s.interrupt layout number).entries s.running =
      s.entry layout number :: s.entries s.running :=
  Function.update_self ..

/-- The running process's interrupts, with the latest returned or changed. -/
def InterruptState.setEntries [DecidableEq Proc] (s : InterruptState Proc)
    (entries : List (Entry Proc)) : InterruptState Proc :=
  { s with entries := Function.update s.entries s.running entries }

@[simp] theorem InterruptState.setEntries_running [DecidableEq Proc] (s : InterruptState Proc)
    (entries : List (Entry Proc)) : (s.setEntries entries).entries s.running = entries :=
  Function.update_self ..

@[simp] theorem InterruptState.setEntries_of_ne [DecidableEq Proc] (s : InterruptState Proc)
    (entries : List (Entry Proc)) {p : Proc} (hp : p ≠ s.running) :
    (s.setEntries entries).entries p = s.entries p :=
  Function.update_of_ne hp ..

/-- The code of the running process works. User code keeps the stacks and the contexts. C code of
the kernel keeps every context, the stacks of the other processes, and its own stack above its own
part. -/
def StackLayout.Works (layout : StackLayout Proc) (s next : InterruptState Proc) : Prop :=
  match s.point with
  | .user =>
    next.core.registers.UserMode ∧
      ∀ p position, layout.Owns p position →
        next.core.memory position = s.core.memory position
  | .code =>
    ¬ next.core.registers.UserMode ∧
      layout.bottom s.running ≤ next.core.registers.stackPointer ∧
      next.core.registers.stackPointer ≤ layout.ceiling s.running (s.entries s.running) ∧
      (∀ p position, layout.InStack p position →
        (p = s.running → layout.ceiling s.running (s.entries s.running) ≤ position) →
          next.core.memory position = s.core.memory position) ∧
      ∀ p position, InContext (layout.context p) position →
        next.core.memory position = s.core.memory position
  | _ => False

/-- The stack slot of the process's context lies in its own stack. -/
def StackLayout.SlotInside (layout : StackLayout Proc) (memory : Memory) (p : Proc) : Prop :=
  layout.bottom p ≤ (loadContext memory (layout.context p).toNat).rsp.toNat ∧
    (loadContext memory (layout.context p).toNat).rsp.toNat + 8 ≤ layout.limit p

/-- Runs from states in which the scheduler has started: every other process has a context whose
stack slot lies in its own stack, and no interrupt is in progress. An interrupt finds room on its
stack, and `int 0x80` is an instruction of user code or of C code. -/
def interruptSystem [DecidableEq Proc] (layout : StackLayout Proc) :
    TransitionSystem (InterruptState Proc) (InterruptEvent Proc) where
  start s := s.point = .code ∧ (∀ p, s.entries p = []) ∧ ¬ s.core.registers.UserMode ∧
    layout.bottom s.running ≤ s.core.registers.stackPointer ∧
    s.core.registers.stackPointer ≤ layout.limit s.running ∧
    (layout.IsUser s.running → s.tssRsp0 = layout.kernelRsp s.running) ∧
    ∀ p, p ≠ s.running → layout.SlotInside s.core.memory p
  step s event next :=
    match event with
    | .work => next = { s with core := next.core } ∧ layout.Works s next
    | .create p =>
      s.point = .code ∧ p ≠ s.running ∧ s.entries p = [] ∧
        next = { s with core := { s.core with memory := next.core.memory } } ∧
        layout.SlotInside next.core.memory p ∧
        ∀ q position, q ≠ p → layout.Owns q position →
          next.core.memory position = s.core.memory position
    | .receive out message =>
      s.point = .code ∧ (∃ entry rest a2 a3 a4 a5, s.entries s.running = entry :: rest ∧
        entry.dispatch = .syscall sysIpcRecv out a2 a3 a4 a5) ∧
        out ≠ 0#64 ∧ message.len.toNat ≤ ipcMsgMax ∧
        next = { s with core := { s.core with
          memory := storeReceived s.core.memory out.toNat message } }
    | .loadSegment dest bytes =>
      s.point = .code ∧
        next = { s with core := { s.core with memory := placeBytes s.core.memory dest bytes } }
    | .cell index value =>
      s.point = .code ∧
        next = { s with core := { s.core with
          memory := store s.core.memory (0xB8000 + 2 * index) value } }
    | .interrupt number =>
      (32 ≤ number ∧ number < 48 ∨ number = 0x80 ∧ (s.point = .user ∨ s.point = .code)) ∧
        layout.bottom s.running + frameSize + 8 ≤ s.core.entryTop s.tssRsp0 ∧
        next = s.interrupt layout number
    | .setResult result =>
      ∃ entry rest, s.point = .code ∧ s.entries s.running = entry :: rest ∧
        entry.dispatch.IsSyscall ∧ entry.result = none ∧
        next = { s with core := { s.core with
          memory := store s.core.memory (entry.frame + 8 * 14) result } }.setEntries
            ({ entry with result := some result } :: rest)
    | .dispatchReturn =>
      ∃ entry rest, s.point = .code ∧ s.entries s.running = entry :: rest ∧
        s.core.registers.stackPointer = entry.frame - 8 ∧
        (entry.dispatch.IsSyscall → entry.result.isSome) ∧
        next = { s with core := s.core.ret, point := .exiting 0 }
    | .exit =>
      ∃ index instr, s.point = .exiting index ∧ index < 16 ∧
        isrCommonExit[index]? = some instr ∧
        next = { s with core := instr.exec s.core, point := .exiting (index + 1) }
    | .iretq =>
      ∃ entry rest, s.point = .exiting 16 ∧ s.entries s.running = entry :: rest ∧
        next = { s with core := StubInstr.iretq.exec s.core, point := entry.point }.setEntries rest
    | .callSwitch old new =>
      s.point = .code ∧ s.core.registers.gpr .rdi = layout.context old ∧
        s.core.registers.gpr .rsi = layout.context new ∧
        layout.bottom s.running ≤ s.core.registers.stackPointer ∧
        s.core.registers.stackPointer + 8 ≤ layout.ceiling s.running (s.entries s.running) ∧
        next = { s with point := .switching 0 new }
    | .switch =>
      ∃ index new instr, s.point = .switching index new ∧
        switchContextCode[index]? = some instr ∧
        next =
          { core := s.core.withMachine (instr.exec s.core.machine)
            -- the instruction that loads `rsp` is on the new stack
            running := if index = 15 then new else s.running
            -- `schedule` sets it before the call, and only user code is interrupted to it
            tssRsp0 := if index = 15 then layout.kernelRsp new else s.tssRsp0
            point := if index = 18 then .code else .switching (index + 1) new
            entries := s.entries }
    | .enterUser =>
      s.point = .code ∧ s.entries s.running = [] ∧ layout.IsUser s.running ∧
        next.core.registers.UserMode ∧
        next = { s with core := { next.core with memory := s.core.memory }, point := .user }

/-- No interrupt that has not returned came in `switch_context`. -/
def OutsideSwitch (entries : List (Entry Proc)) : Prop :=
  ∀ entry ∈ entries, ¬ entry.point.Switching

/-- The condition on a step: `ipc_recv`, the loader and `vga_putc` write to no kernel stack and no
saved context, and `switch_context` is called to suspend the process on whose stack it is called,
and not on top of an interrupt that came in `switch_context`. -/
def StackLayout.Undisturbed (layout : StackLayout Proc) (s : InterruptState Proc) :
    InterruptEvent Proc → Prop
  | .receive out message => ∀ p position,
    InReceived out.toNat message position → ¬ layout.Owns p position
  | .loadSegment dest bytes => ∀ p position, dest ≤ position → position < dest + bytes.length →
    ¬ layout.Owns p position
  | .cell index _ => ∀ p position, 0xB8000 + 2 * index ≤ position →
    position < 0xB8000 + 2 * index + 2 → ¬ layout.Owns p position
  | .callSwitch old _ => old = s.running ∧ OutsideSwitch (s.entries s.running)
  | _ => True

end System

end Colix.Arch
