import Colix.Foundation.WordStack
import Colix.Types

/-!
# The interrupt stubs

`kernel/arch/x86_64/isr_stub.asm` as the lists of its instructions, from the interrupt to the first
instruction of `interrupt_dispatch` and from its return to `iretq`, over a processor with all its
general registers and byte memory. `enter_spec` says what the way in leaves on the stack, for the
stubs with an error code and for those without one, and `loadFrame_of_wordsAt` that these words are
an `interrupt_frame_t` of the interrupted registers. `pop_spec` and `iretq_registers` are the way
back.
-/

set_option autoImplicit false
set_option relaxedAutoImplicit false

namespace Colix.Arch

open Foundation

/-! ### The processor -/

/-- The general registers. -/
inductive Gpr
  | rax | rbx | rcx | rdx | rsi | rdi | rbp | rsp
  | r8 | r9 | r10 | r11 | r12 | r13 | r14 | r15
  deriving DecidableEq

/-- What an interrupt has to preserve, with the selectors that `iretq` pops. -/
structure Registers where
  gpr : Gpr → Word
  rip : Word
  rflags : Word
  cs : BitVec 16
  ss : BitVec 16

/-- The stack pointer as an address. -/
def Registers.stackPointer (r : Registers) : ℕ :=
  (r.gpr .rsp).toNat

/-- The processor is in user mode: the privilege level is the low two bits of `cs`. -/
def Registers.UserMode (r : Registers) : Prop :=
  r.cs &&& 3#16 ≠ 0#16

instance (r : Registers) : Decidable r.UserMode :=
  inferInstanceAs (Decidable (_ ≠ _))

/-- The registers with another value in a general one. -/
def Registers.setGpr (r : Registers) (dst : Gpr) (value : Word) : Registers :=
  { r with gpr := Function.update r.gpr dst value }

@[simp] theorem Registers.setGpr_gpr_self (r : Registers) (dst : Gpr) (value : Word) :
    (r.setGpr dst value).gpr dst = value :=
  Function.update_self ..

@[simp] theorem Registers.setGpr_gpr_of_ne (r : Registers) {dst other : Gpr} (value : Word)
    (hne : other ≠ dst) : (r.setGpr dst value).gpr other = r.gpr other :=
  Function.update_of_ne hne ..

/-- The stack pointer moved up. -/
theorem Registers.stackPointer_add (r : Registers) {size : ℕ}
    (hfits : r.stackPointer + size < 2 ^ 64) :
    (r.setGpr .rsp (r.gpr .rsp + BitVec.ofNat 64 size)).stackPointer = r.stackPointer + size := by
  rw [Registers.stackPointer, Registers.setGpr_gpr_self, BitVec.toNat_add, BitVec.toNat_ofNat,
    Nat.add_mod_mod]
  exact Nat.mod_eq_of_lt hfits

/-- Registers, data segments and memory. -/
structure Core where
  registers : Registers
  ds : BitVec 16
  es : BitVec 16
  memory : Memory

def Core.setGpr (core : Core) (dst : Gpr) (value : Word) : Core :=
  { core with registers := core.registers.setGpr dst value }

/-- The word at the stack pointer. -/
def Core.top (core : Core) : Word :=
  load 64 core.memory core.registers.stackPointer

/-- `push`. -/
def Core.push (core : Core) (word : Word) : Core :=
  { core with
    registers := core.registers.setGpr .rsp (core.registers.gpr .rsp - 8#64)
    memory := store core.memory (core.registers.gpr .rsp - 8#64).toNat word }

/-- The words pushed one after the other. -/
def Core.pushAll (core : Core) (words : List Word) : Core :=
  words.foldl Core.push core

/-- What an interrupt gate clears: IF, TF, NT and RF. -/
abbrev gateMask : Word := 0x14300#64

/-- The stack that an interrupt takes: `rsp0` from user mode, and aligned. -/
def Core.takeStack (core : Core) (rsp0 : Word) : Core :=
  core.setGpr .rsp
    ((if core.registers.UserMode then rsp0 else core.registers.gpr .rsp) &&& ~~~15#64)

/-- What `iretq` pops to continue with the registers. -/
def Registers.iretWords (r : Registers) : List Word :=
  [r.rip, r.cs.setWidth 64, r.rflags, r.gpr .rsp, r.ss.setWidth 64]

/-- The processor takes an interrupt: it pushes where it was, and an error code if the interrupt has
one, and enters the gate. -/
def Core.deliver (core : Core) (gate rsp0 : Word) (errorCode : Option Word) : Core :=
  let r := core.registers
  let pushed := (core.takeStack rsp0).pushAll (r.iretWords.reverse ++ errorCode.toList)
  { pushed with
    registers :=
      { gpr := pushed.registers.gpr
        rip := gate
        rflags := r.rflags &&& ~~~gateMask
        cs := 0x08#16
        ss := if r.UserMode then 0#16 else r.ss } }

/-! ### The code -/

/-- `push value`, `push src`, `pop dst`, `mov ax, value`, `mov ds, ax`, `mov es, ax`,
`mov dst, src`, `call target`, `add rsp, value` and `iretq`. -/
inductive StubInstr
  | pushImm (value : Word)
  | push (src : Gpr)
  | pop (dst : Gpr)
  | movAx (value : BitVec 16)
  | movDs
  | movEs
  | mov (dst src : Gpr)
  | call (target returnAddress : Word)
  | addRsp (value : Word)
  | iretq

/-- One instruction. -/
def StubInstr.exec (core : Core) : StubInstr → Core
  | .pushImm value => core.push value
  | .push src => core.push (core.registers.gpr src)
  | .pop dst => (core.setGpr .rsp (core.registers.gpr .rsp + 8#64)).setGpr dst core.top
  | .movAx value =>
    core.setGpr .rax ((core.registers.gpr .rax &&& ~~~0xFFFF#64) ||| value.setWidth 64)
  | .movDs => { core with ds := (core.registers.gpr .rax).setWidth 16 }
  | .movEs => { core with es := (core.registers.gpr .rax).setWidth 16 }
  | .mov dst src => core.setGpr dst (core.registers.gpr src)
  | .call target returnAddress =>
    let core := core.push returnAddress
    { core with registers := { core.registers with rip := target } }
  | .addRsp value => core.setGpr .rsp (core.registers.gpr .rsp + value)
  | .iretq =>
    let word (depth : ℕ) : Word := load 64 core.memory (core.registers.stackPointer + 8 * depth)
    { core with
      registers :=
        { gpr := Function.update core.registers.gpr .rsp (word 3)
          rip := word 0
          rflags := word 2
          cs := (word 1).setWidth 16
          ss := (word 4).setWidth 16 } }

/-- Instructions one after another. -/
def runStub (code : List StubInstr) (core : Core) : Core :=
  code.foldl StubInstr.exec core

/-- Where the linker put the code that the stubs refer to. -/
structure IsrSymbols where
  isr : ℕ → Word
  interruptDispatch : Word
  returnAddress : Word

/-- `ISR_NOERR`. -/
def isrNoErr (number : ℕ) : List StubInstr :=
  [.pushImm 0#64, .pushImm (BitVec.ofNat 64 number)]

/-- `ISR_ERR`. -/
def isrErr (number : ℕ) : List StubInstr :=
  [.pushImm (BitVec.ofNat 64 number)]

/-- The vectors whose stub is `ISR_ERR`. -/
def errVectors : List ℕ :=
  [8, 10, 11, 12, 13, 14, 17]

/-- `isr_n`, up to its jump to `isr_common`. -/
def isrStub (number : ℕ) : List StubInstr :=
  if number ∈ errVectors then isrErr number else isrNoErr number

/-- The registers that `isr_common` pushes, in order. -/
def saveOrder : List Gpr :=
  [.rax, .rbx, .rcx, .rdx, .rsi, .rdi, .rbp, .r8, .r9, .r10, .r11, .r12, .r13, .r14, .r15]

/-- The registers that `isr_common` pops, in order. -/
def restoreOrder : List Gpr :=
  [.r15, .r14, .r13, .r12, .r11, .r10, .r9, .r8, .rbp, .rdi, .rsi, .rdx, .rcx, .rbx, .rax]

/-- `isr_common` up to its call. -/
def isrCommonEntry (symbols : IsrSymbols) : List StubInstr :=
  saveOrder.map .push ++
    [.movAx 0x10#16, .movDs, .movEs, .mov .rdi .rsp,
      .call symbols.interruptDispatch symbols.returnAddress]

/-- `isr_common` behind its call. -/
def isrCommonExit : List StubInstr :=
  restoreOrder.map .pop ++ [.addRsp 16#64, .iretq]

/-- From the interrupt to the first instruction of `interrupt_dispatch`. -/
def Core.enter (core : Core) (symbols : IsrSymbols) (rsp0 : Word) (number : ℕ)
    (errorCode : Option Word) : Core :=
  runStub (isrStub number ++ isrCommonEntry symbols)
    (core.deliver (symbols.isr number) rsp0 errorCode)

/-! ### The frame -/

/-- `interrupt_frame_t`. -/
structure InterruptFrame where
  r15 : Word
  r14 : Word
  r13 : Word
  r12 : Word
  r11 : Word
  r10 : Word
  r9 : Word
  r8 : Word
  rbp : Word
  rdi : Word
  rsi : Word
  rdx : Word
  rcx : Word
  rbx : Word
  rax : Word
  intNo : Word
  errCode : Word
  rip : Word
  cs : Word
  rflags : Word
  rsp : Word
  ss : Word

/-- The size of `interrupt_frame_t`. -/
abbrev frameSize : ℕ := 176

/-- The frame at an address. -/
def loadFrame (memory : Memory) (address : ℕ) : InterruptFrame where
  r15 := load 64 memory address
  r14 := load 64 memory (address + 8)
  r13 := load 64 memory (address + 16)
  r12 := load 64 memory (address + 24)
  r11 := load 64 memory (address + 32)
  r10 := load 64 memory (address + 40)
  r9 := load 64 memory (address + 48)
  r8 := load 64 memory (address + 56)
  rbp := load 64 memory (address + 64)
  rdi := load 64 memory (address + 72)
  rsi := load 64 memory (address + 80)
  rdx := load 64 memory (address + 88)
  rcx := load 64 memory (address + 96)
  rbx := load 64 memory (address + 104)
  rax := load 64 memory (address + 112)
  intNo := load 64 memory (address + 120)
  errCode := load 64 memory (address + 128)
  rip := load 64 memory (address + 136)
  cs := load 64 memory (address + 144)
  rflags := load 64 memory (address + 152)
  rsp := load 64 memory (address + 160)
  ss := load 64 memory (address + 168)

/-- What `interrupt_dispatch` does with an interrupt: it panics, calls `syscall_handler`, handles an
IRQ, or does nothing. -/
inductive Dispatch
  | exception (no : Word)
  | syscall (num a1 a2 a3 a4 a5 : Word)
  | irq (irq : BitVec 8)
  | none

/-- `interrupt_dispatch` calls `syscall_handler`. -/
def Dispatch.IsSyscall : Dispatch → Prop
  | .syscall .. => True
  | _ => False

/-- The branch of `interrupt_dispatch`, with what it takes from the frame. -/
def interruptDispatch (frame : InterruptFrame) : Dispatch :=
  let no := frame.intNo
  if no < 32#64 then .exception no
  else if no = 0x80#64 then
    .syscall frame.rax frame.rdi frame.rsi frame.rdx frame.r10 frame.r8
  else if 32#64 ≤ no ∧ no < 48#64 then .irq ((no - 32#64).setWidth 8)
  else .none

/-- The frame of registers that were interrupted. -/
def Registers.frame (r : Registers) (number : ℕ) (errorCode : Word) : InterruptFrame where
  r15 := r.gpr .r15
  r14 := r.gpr .r14
  r13 := r.gpr .r13
  r12 := r.gpr .r12
  r11 := r.gpr .r11
  r10 := r.gpr .r10
  r9 := r.gpr .r9
  r8 := r.gpr .r8
  rbp := r.gpr .rbp
  rdi := r.gpr .rdi
  rsi := r.gpr .rsi
  rdx := r.gpr .rdx
  rcx := r.gpr .rcx
  rbx := r.gpr .rbx
  rax := r.gpr .rax
  intNo := BitVec.ofNat 64 number
  errCode := errorCode
  rip := r.rip
  cs := r.cs.setWidth 64
  rflags := r.rflags
  rsp := r.gpr .rsp
  ss := r.ss.setWidth 64

/-- The words of a frame, the lowest first. -/
def Registers.frameWords (r : Registers) (number : ℕ) (errorCode : Word) : List Word :=
  restoreOrder.map r.gpr ++ BitVec.ofNat 64 number :: errorCode :: r.iretWords

section Frame

variable {memory : Memory} {address number : ℕ} {errorCode : Word} {r : Registers}

@[simp] theorem length_frameWords : (r.frameWords number errorCode).length = 22 := rfl

/-- Where the words of a frame stand, the C structure has the registers in its fields. -/
theorem loadFrame_of_wordsAt (hwords : WordsAt memory address (r.frameWords number errorCode)) :
    loadFrame memory address = r.frame number errorCode := by
  have hword : ∀ index word, (r.frameWords number errorCode)[index]? = some word →
      load 64 memory (address + 8 * index) = word := hwords
  rw [loadFrame, Registers.frame, hword 1 _ rfl, hword 2 _ rfl, hword 3 _ rfl, hword 4 _ rfl,
    hword 5 _ rfl, hword 6 _ rfl, hword 7 _ rfl, hword 8 _ rfl, hword 9 _ rfl, hword 10 _ rfl,
    hword 11 _ rfl, hword 12 _ rfl, hword 13 _ rfl, hword 14 _ rfl, hword 15 _ rfl,
    hword 16 _ rfl, hword 17 _ rfl, hword 18 _ rfl, hword 19 _ rfl, hword 20 _ rfl,
    hword 21 _ rfl, show load 64 memory address = _ from hword 0 _ rfl]

/-- A system call is dispatched with its caller's registers. -/
theorem interruptDispatch_frame_systemCall (r : Registers) (errorCode : Word) :
    interruptDispatch (r.frame 0x80 errorCode) =
      .syscall (r.gpr .rax) (r.gpr .rdi) (r.gpr .rsi) (r.gpr .rdx) (r.gpr .r10) (r.gpr .r8) := rfl

/-- Only the number of system calls is dispatched as one. -/
theorem isSyscall_interruptDispatch_frame (r : Registers) (errorCode : Word)
    (hnumber : number < 256) :
    (interruptDispatch (r.frame number errorCode)).IsSyscall ↔ number = 0x80 := by
  constructor
  · intro hcall
    by_contra hother
    have hword : BitVec.ofNat 64 number ≠ 0x80#64 := by
      intro hsame
      have hnat := congrArg BitVec.toNat hsame
      rw [BitVec.toNat_ofNat, Nat.mod_eq_of_lt (by omega)] at hnat
      exact hother hnat
    rw [interruptDispatch, Registers.frame] at hcall
    dsimp only at hcall
    rw [if_neg hword] at hcall
    split_ifs at hcall <;> exact hcall
  · rintro rfl
    rw [interruptDispatch_frame_systemCall]
    trivial

end Frame

/-! ### The way in -/

/-- What pushes leave: the words below the stack pointer, and every other general register. -/
structure Pushed (before after : Core) (words : List Word) : Prop where
  memory : after.memory =
    pushWords before.memory before.registers.stackPointer words
  stackPointer : after.registers.stackPointer =
    before.registers.stackPointer - 8 * words.length
  gpr : ∀ r, r ≠ .rsp → after.registers.gpr r = before.registers.gpr r

section Enter

variable {core before middle after : Core} {words rest : List Word} {word : Word}

theorem Pushed.refl (core : Core) : Pushed core core [] :=
  ⟨rfl, rfl, fun _ _ ↦ rfl⟩

theorem Pushed.trans (hfirst : Pushed before middle words) (hlast : Pushed middle after rest)
    (hroom : 8 * (words ++ rest).length ≤ before.registers.stackPointer) :
    Pushed before after (words ++ rest) := by
  rw [List.length_append] at hroom
  refine ⟨?_, ?_, fun r hr ↦ (hlast.gpr r hr).trans (hfirst.gpr r hr)⟩
  · rw [hlast.memory, hfirst.memory, hfirst.stackPointer, pushWords_append (by omega)]
  · rw [hlast.stackPointer, hfirst.stackPointer, List.length_append]
    omega

theorem pushed_push (hroom : 8 ≤ core.registers.stackPointer) (word : Word) :
    Pushed core (core.push word) [word] := by
  have hrsp : (core.registers.gpr .rsp - 8#64).toNat = core.registers.stackPointer - 8 :=
    BitVec.toNat_sub_of_le (BitVec.le_def.mpr hroom)
  refine ⟨?_, ?_, fun r hr ↦ Registers.setGpr_gpr_of_ne _ _ hr⟩
  · change store core.memory (core.registers.gpr .rsp - 8#64).toNat word = _
    rw [hrsp]
    rfl
  · rw [Core.push, Registers.stackPointer, Registers.setGpr_gpr_self, hrsp]
    rfl

theorem pushed_pushAll (hroom : 8 * words.length ≤ core.registers.stackPointer) :
    Pushed core (core.pushAll words) words := by
  induction words generalizing core with
  | nil => exact Pushed.refl core
  | cons word words ih =>
    rw [List.length_cons] at hroom
    have hpush : Pushed core (core.push word) [word] := pushed_push (by omega) word
    have hrest : Pushed (core.push word) ((core.push word).pushAll words) words :=
      ih (by rw [hpush.stackPointer, List.length_singleton]; omega)
    exact hpush.trans hrest (by rw [List.length_append, List.length_singleton]; omega)

/-- Registers pushed one after the other. -/
theorem runStub_push {order : List Gpr} (horder : .rsp ∉ order) (core : Core) :
    runStub (order.map .push) core = core.pushAll (order.map core.registers.gpr) := by
  induction order generalizing core with
  | nil => rfl
  | cons src order ih =>
    rw [List.mem_cons, not_or] at horder
    have hsame : order.map (core.push (core.registers.gpr src)).registers.gpr =
        order.map core.registers.gpr :=
      List.map_congr_left fun r hr ↦
        Registers.setGpr_gpr_of_ne _ _ (ne_of_mem_of_not_mem hr horder.2)
    change runStub (order.map .push) (core.push (core.registers.gpr src)) = _
    rw [ih horder.2, hsame]
    rfl

/-- Where the processor begins to push: the stack pointer it takes, aligned. -/
def Core.entryTop (core : Core) (rsp0 : Word) : ℕ :=
  (if core.registers.UserMode then rsp0 else core.registers.gpr .rsp).toNat / 16 * 16

theorem stackPointer_takeStack (core : Core) (rsp0 : Word) :
    (core.takeStack rsp0).registers.stackPointer = core.entryTop rsp0 := by
  rw [Core.takeStack, Core.setGpr, Registers.stackPointer, Registers.setGpr_gpr_self]
  exact toNat_and_not_lowMask (by decide : 4 ≤ 64) _

theorem gpr_takeStack (core : Core) (rsp0 : Word) {r : Gpr} (hr : r ≠ .rsp) :
    (core.takeStack rsp0).registers.gpr r = core.registers.gpr r :=
  Registers.setGpr_gpr_of_ne _ _ hr

/-- The words that the way in pushes, in order: those of the frame from the highest on, and the
return address of the call. -/
def Registers.entryWords (r : Registers) (symbols : IsrSymbols) (number : ℕ) (errorCode : Word) :
    List Word :=
  r.iretWords.reverse ++ [errorCode, BitVec.ofNat 64 number] ++ saveOrder.map r.gpr ++
    [symbols.returnAddress]

theorem reverse_entryWords (r : Registers) (symbols : IsrSymbols) (number : ℕ)
    (errorCode : Word) : (r.entryWords symbols number errorCode).reverse =
      symbols.returnAddress :: r.frameWords number errorCode := rfl

@[simp] theorem length_entryWords (r : Registers) (symbols : IsrSymbols) (number : ℕ)
    (errorCode : Word) : (r.entryWords symbols number errorCode).length = 23 := rfl

variable {symbols : IsrSymbols} {rsp0 gate : Word} {number : ℕ} {errorCode : Option Word}

/-- What the processor pushes. -/
theorem pushed_deliver (hroom : 48 ≤ core.entryTop rsp0) :
    Pushed (core.takeStack rsp0) (core.deliver gate rsp0 errorCode)
      (core.registers.iretWords.reverse ++ errorCode.toList) := by
  have hlength : (core.registers.iretWords.reverse ++ errorCode.toList).length ≤ 6 := by
    cases errorCode <;> simp [Registers.iretWords]
  have hpushed : Pushed (core.takeStack rsp0)
      ((core.takeStack rsp0).pushAll (core.registers.iretWords.reverse ++ errorCode.toList))
      (core.registers.iretWords.reverse ++ errorCode.toList) :=
    pushed_pushAll (by rw [stackPointer_takeStack]; omega)
  rw [Core.deliver]
  obtain ⟨pushed, hsame⟩ : ∃ pushed, pushed = (core.takeStack rsp0).pushAll
    (core.registers.iretWords.reverse ++ errorCode.toList) := ⟨_, rfl⟩
  rw [← hsame] at hpushed ⊢
  exact ⟨hpushed.memory, hpushed.stackPointer, hpushed.gpr⟩

/-- What a stub pushes, so that every frame has an error code and a number. -/
theorem pushed_isrStub (herror : number ∈ errVectors ↔ errorCode.isSome)
    (hroom : 16 ≤ core.registers.stackPointer) :
    ∃ words, Pushed core (runStub (isrStub number) core) words ∧
      errorCode.toList ++ words = [errorCode.getD 0#64, BitVec.ofNat 64 number] := by
  rw [isrStub]
  cases errorCode with
  | none =>
    rw [if_neg (by simpa using herror)]
    have hpushed : Pushed core (core.pushAll [0#64, BitVec.ofNat 64 number])
        [0#64, BitVec.ofNat 64 number] := pushed_pushAll hroom
    exact ⟨_, hpushed, rfl⟩
  | some code =>
    rw [if_pos (herror.mpr rfl)]
    have hpushed : Pushed core (core.pushAll [BitVec.ofNat 64 number])
        [BitVec.ofNat 64 number] := pushed_push (Nat.le_trans (by decide) hroom) _
    exact ⟨_, hpushed, rfl⟩

theorem runStub_append (code next : List StubInstr) (core : Core) :
    runStub (code ++ next) core = runStub next (runStub code core) :=
  List.foldl_append

/-- `isr_common` behind its pushes: the kernel's data segments, the argument, and the call. -/
theorem runStub_call (symbols : IsrSymbols) (core : Core) :
    ∃ called : Core, runStub [.movAx 0x10#16, .movDs, .movEs, .mov .rdi .rsp,
        .call symbols.interruptDispatch symbols.returnAddress] core = called ∧
      called.memory = (core.push symbols.returnAddress).memory ∧
      called.registers.gpr .rsp = core.registers.gpr .rsp - 8#64 ∧
      called.registers.gpr .rdi = core.registers.gpr .rsp ∧
      called.registers.cs = core.registers.cs :=
  ⟨_, rfl, rfl, rfl, rfl, rfl⟩

/-- `isr_common` pushes the registers and the return address, and calls `interrupt_dispatch` with
the address of what it pushed last but one. -/
theorem isrCommonEntry_spec (symbols : IsrSymbols) (hroom : 128 ≤ core.registers.stackPointer) :
    (runStub (isrCommonEntry symbols) core).memory =
        pushWords core.memory core.registers.stackPointer
          (saveOrder.map core.registers.gpr ++ [symbols.returnAddress]) ∧
      (runStub (isrCommonEntry symbols) core).registers.stackPointer =
        core.registers.stackPointer - 128 ∧
      ((runStub (isrCommonEntry symbols) core).registers.gpr .rdi).toNat =
        core.registers.stackPointer - 120 := by
  obtain ⟨saved, hsaved⟩ : ∃ saved, saved =
    core.pushAll (saveOrder.map core.registers.gpr) := ⟨_, rfl⟩
  have hpushed : Pushed core saved (saveOrder.map core.registers.gpr) := by
    rw [hsaved]
    exact pushed_pushAll (Nat.le_trans (by decide : 8 * 15 ≤ 128) hroom)
  have htop : saved.registers.stackPointer = core.registers.stackPointer - 120 :=
    hpushed.stackPointer
  have hpush : Pushed saved (saved.push symbols.returnAddress) [symbols.returnAddress] :=
    pushed_push (by omega) symbols.returnAddress
  have hall := hpushed.trans hpush (Nat.le_trans (by decide : 8 * 16 ≤ 128) hroom)
  obtain ⟨called, hcalled, hmemory, hrsp, hrdi, -⟩ := runStub_call symbols saved
  rw [isrCommonEntry, runStub_append, runStub_push (by decide), ← hsaved, hcalled]
  refine ⟨hmemory.trans hall.memory, ?_, ?_⟩
  · rw [Registers.stackPointer, hrsp]
    exact hall.stackPointer
  · rw [hrdi]
    exact htop

/-- The way in pushes the words of the frame and the return address, and calls
`interrupt_dispatch` with the address of the frame. -/
theorem enter_spec (symbols : IsrSymbols) (herror : number ∈ errVectors ↔ errorCode.isSome)
    (hroom : frameSize + 8 ≤ core.entryTop rsp0) :
    (core.enter symbols rsp0 number errorCode).memory =
        pushWords core.memory (core.entryTop rsp0)
          (core.registers.entryWords symbols number (errorCode.getD 0#64)) ∧
      (core.enter symbols rsp0 number errorCode).registers.stackPointer =
        core.entryTop rsp0 - frameSize - 8 ∧
      ((core.enter symbols rsp0 number errorCode).registers.gpr .rdi).toNat =
        core.entryTop rsp0 - frameSize := by
  rw [frameSize] at hroom ⊢
  obtain ⟨delivered, hdelivered⟩ : ∃ delivered, delivered =
    core.deliver (symbols.isr number) rsp0 errorCode := ⟨_, rfl⟩
  have hdeliver : Pushed (core.takeStack rsp0) delivered
      (core.registers.iretWords.reverse ++ errorCode.toList) := by
    rw [hdelivered]
    exact pushed_deliver (by omega)
  have htop := stackPointer_takeStack core rsp0
  have hfive : core.registers.iretWords.reverse.length = 5 := rfl
  have herrors : errorCode.toList.length ≤ 1 := by cases errorCode <;> simp
  have hdeliverTop := hdeliver.stackPointer
  rw [List.length_append, hfive, htop] at hdeliverTop
  have hstubRoom : 16 ≤ delivered.registers.stackPointer := by omega
  obtain ⟨words, hstub, hwords⟩ := pushed_isrStub herror hstubRoom
  have hlength : errorCode.toList.length + words.length = 2 := by
    rw [← List.length_append, hwords]
    rfl
  have hpushed := hdeliver.trans hstub (by
    rw [htop, List.length_append, List.length_append, hfive]
    omega)
  rw [List.append_assoc, hwords] at hpushed
  have hstubTop := hpushed.stackPointer
  rw [htop] at hstubTop
  replace hstubTop : (runStub (isrStub number) delivered).registers.stackPointer =
    core.entryTop rsp0 - 56 := hstubTop
  have hcommonRoom : 128 ≤ (runStub (isrStub number) delivered).registers.stackPointer := by omega
  obtain ⟨hmemory, hrsp, hrdi⟩ := isrCommonEntry_spec symbols hcommonRoom
  have hgpr : saveOrder.map (runStub (isrStub number) delivered).registers.gpr =
      saveOrder.map core.registers.gpr := by
    refine List.map_congr_left fun r hr ↦ ?_
    have hne : r ≠ .rsp := ne_of_mem_of_not_mem hr (by decide)
    rw [hpushed.gpr r hne, gpr_takeStack core rsp0 hne]
  have henter : core.enter symbols rsp0 number errorCode =
      runStub (isrCommonEntry symbols) (runStub (isrStub number) delivered) := by
    rw [Core.enter, runStub_append, hdelivered]
  rw [henter]
  refine ⟨?_, by omega, by omega⟩
  rw [hmemory, hgpr, hpushed.memory, hpushed.stackPointer, htop, ← pushWords_append]
  · rfl
  · change 8 * 7 ≤ core.entryTop rsp0
    omega

/-- `interrupt_dispatch` runs in kernel mode. -/
theorem enter_cs (core : Core) (symbols : IsrSymbols) (rsp0 : Word) (number : ℕ)
    (errorCode : Option Word) :
    (core.enter symbols rsp0 number errorCode).registers.cs = 0x08#16 := by
  rw [Core.enter, isrStub]
  split_ifs
  · rfl
  · rfl

end Enter

/-! ### The way out -/

section Exit

variable {core : Core} {r : Registers} {dst : Gpr}

/-- `pop` takes the word at the stack pointer. -/
theorem pop_spec (hdst : dst ≠ .rsp) (hfits : core.registers.stackPointer + 8 < 2 ^ 64) :
    (StubInstr.exec core (.pop dst)).registers.stackPointer =
        core.registers.stackPointer + 8 ∧
      (StubInstr.exec core (.pop dst)).registers.gpr dst = core.top ∧
      ∀ other, other ≠ .rsp → other ≠ dst →
        (StubInstr.exec core (.pop dst)).registers.gpr other = core.registers.gpr other := by
  refine ⟨?_, ?_, fun other hrsp hother ↦ ?_⟩
  · rw [StubInstr.exec, Registers.stackPointer, Core.setGpr,
      Registers.setGpr_gpr_of_ne _ _ hdst.symm]
    exact core.registers.stackPointer_add hfits
  · rw [StubInstr.exec, Core.setGpr, Registers.setGpr_gpr_self]
  · rw [StubInstr.exec, Core.setGpr, Registers.setGpr_gpr_of_ne _ _ hother, Core.setGpr,
      Registers.setGpr_gpr_of_ne _ _ hrsp]

/-- `iretq` continues with the registers that its words and the general registers are of. -/
theorem iretq_registers (hwords : WordsAt core.memory core.registers.stackPointer r.iretWords)
    (hgpr : ∀ g, g ≠ .rsp → core.registers.gpr g = r.gpr g) :
    (StubInstr.exec core .iretq).registers = r := by
  have hword : ∀ index word, r.iretWords[index]? = some word →
      load 64 core.memory (core.registers.stackPointer + 8 * index) = word := hwords
  have hselector : ∀ selector : BitVec 16, (selector.setWidth 64).setWidth 16 = selector :=
    fun selector ↦ by simp
  have hgprs : Function.update core.registers.gpr .rsp (r.gpr .rsp) = r.gpr := by
    funext g
    by_cases hg : g = .rsp
    · rw [hg, Function.update_self]
    · rw [Function.update_of_ne hg, hgpr g hg]
  rw [StubInstr.exec]
  dsimp only
  rw [hword 0 _ rfl, hword 1 _ rfl, hword 2 _ rfl, hword 3 _ rfl, hword 4 _ rfl, hgprs,
    hselector, hselector]

end Exit

end Colix.Arch
