import Colix.Foundation.ByteMemory
import Colix.Kernel

/-!
# Context switching

`switch_context` of `kernel/arch/x86_64/context.asm` as the list of its instructions, over a machine
of the registers it names and byte memory. `runCode_switchContextCode` is its specification: the
caller's context is stored, the other context is loaded, and the return address is written to the
incoming stack before `ret` takes it from there.
-/

set_option autoImplicit false
set_option relaxedAutoImplicit false

namespace Colix.Arch

open Foundation

/-! ### Machine -/

/-- The registers that the code names. -/
inductive Reg
  | rax | rbx | rdi | rsi | rbp | rsp | r12 | r13 | r14 | r15
  deriving DecidableEq

/-- Registers, instruction pointer and memory. -/
structure Machine where
  regs : Reg → Word
  rip : Word
  memory : Memory

/-- `mov [base + offset], src`, `mov dst, [base + offset]`, and `ret`. -/
inductive Instr
  | movStore (base : Reg) (offset : Word) (src : Reg)
  | movLoad (dst base : Reg) (offset : Word)
  | ret

/-- One instruction. -/
def Instr.exec (s : Machine) : Instr → Machine
  | .movStore base offset src =>
    { s with memory := store s.memory (s.regs base + offset).toNat (s.regs src) }
  | .movLoad dst base offset =>
    { s with regs := Function.update s.regs dst (load 64 s.memory (s.regs base + offset).toNat) }
  | .ret =>
    { s with
      rip := load 64 s.memory (s.regs .rsp).toNat
      regs := Function.update s.regs .rsp (s.regs .rsp + 8#64) }

/-- Instructions one after another. -/
def runCode (code : List Instr) (s : Machine) : Machine :=
  code.foldl Instr.exec s

/-- The first half of `switch_context`, which saves the caller's context at `rdi`. -/
def saveCode : List Instr :=
  [.movStore .rdi 0#64 .r15,
    .movStore .rdi 8#64 .r14,
    .movStore .rdi 16#64 .r13,
    .movStore .rdi 24#64 .r12,
    .movStore .rdi 32#64 .rbx,
    .movStore .rdi 40#64 .rbp,
    .movLoad .rax .rsp 0#64,
    .movStore .rdi 48#64 .rax,
    .movStore .rdi 56#64 .rsp]

/-- The second half, which restores the context at `rsi`. -/
def restoreCode : List Instr :=
  [.movLoad .r15 .rsi 0#64,
    .movLoad .r14 .rsi 8#64,
    .movLoad .r13 .rsi 16#64,
    .movLoad .r12 .rsi 24#64,
    .movLoad .rbx .rsi 32#64,
    .movLoad .rbp .rsi 40#64,
    .movLoad .rsp .rsi 56#64,
    .movLoad .rax .rsi 48#64,
    .movStore .rsp 0#64 .rax,
    .ret]

/-- `switch_context`. -/
def switchContextCode : List Instr :=
  saveCode ++ restoreCode

/-! ### Contexts in memory -/

/-- The size of `cpu_context_t`. -/
abbrev contextSize : ℕ := 64

/-- The context at an address. -/
def loadContext (memory : Memory) (address : ℕ) : CpuContext where
  r15 := load 64 memory address
  r14 := load 64 memory (address + 8)
  r13 := load 64 memory (address + 16)
  r12 := load 64 memory (address + 24)
  rbx := load 64 memory (address + 32)
  rbp := load 64 memory (address + 40)
  rip := load 64 memory (address + 48)
  rsp := load 64 memory (address + 56)

/-- What a caller of `switch_context` leaves to be resumed with: its registers, the return address
on its stack, and the stack pointer to it. -/
def callerContext (s : Machine) : CpuContext where
  r15 := s.regs .r15
  r14 := s.regs .r14
  r13 := s.regs .r13
  r12 := s.regs .r12
  rbx := s.regs .rbx
  rbp := s.regs .rbp
  rip := load 64 s.memory (s.regs .rsp).toNat
  rsp := s.regs .rsp

/-- The machine continues as the context says, past the return address. -/
structure Resumed (s : Machine) (context : CpuContext) : Prop where
  r15 : s.regs .r15 = context.r15
  r14 : s.regs .r14 = context.r14
  r13 : s.regs .r13 = context.r13
  r12 : s.regs .r12 = context.r12
  rbx : s.regs .rbx = context.rbx
  rbp : s.regs .rbp = context.rbp
  rip : s.rip = context.rip
  rsp : s.regs .rsp = context.rsp + 8#64

/-- The bytes of the context at an address. -/
def InContext (address : Word) (position : ℕ) : Prop :=
  address.toNat ≤ position ∧ position < address.toNat + contextSize

/-- The eight bytes of a stack slot. -/
def InSlot (rsp : Word) (position : ℕ) : Prop :=
  rsp.toNat ≤ position ∧ position < rsp.toNat + 8

/-- A context depends only on its bytes. -/
theorem loadContext_congr {memory next : Memory} {address : Word}
    (hagree : ∀ position, InContext address position → next position = memory position) :
    loadContext next address.toNat = loadContext memory address.toNat := by
  have hword : ∀ offset ≤ 56, load 64 next (address.toNat + offset) =
      load 64 memory (address.toNat + offset) := fun offset hoffset ↦
    load_congr fun position hge hlt ↦
      hagree position ⟨by omega, by rw [contextSize]; omega⟩
  rw [loadContext, loadContext, hword 8 (by omega), hword 16 (by omega), hword 24 (by omega),
    hword 32 (by omega), hword 40 (by omega), hword 48 (by omega), hword 56 (by omega),
    show load 64 next address.toNat = load 64 memory address.toNat from hword 0 (by omega)]

/-! ### What the two halves do -/

section Halves

variable {s : Machine}

/-- The address of a field of a context that does not wrap. -/
theorem toNat_field {address offset : Word} (hfits : address.toNat + contextSize ≤ 2 ^ 64)
    (hoffset : offset.toNat ≤ 56) : (address + offset).toNat = address.toNat + offset.toNat := by
  rw [contextSize] at hfits
  rw [BitVec.toNat_add, Nat.mod_eq_of_lt (by omega)]

/-- The words of a context, in the order of its fields. -/
def CpuContext.words (context : CpuContext) : List Word :=
  [context.r15, context.r14, context.r13, context.r12, context.rbx, context.rbp, context.rip,
    context.rsp]

/-- A context stored word by word is the context loaded. -/
theorem loadContext_storeWords (memory : Memory) (address : ℕ) (context : CpuContext) :
    loadContext (storeWords memory address (CpuContext.words context)) address = context := by
  have hword : ∀ index word, (CpuContext.words context)[index]? = some word →
      load 64 (storeWords memory address (CpuContext.words context)) (address + 8 * index) = word :=
    fun _ _ hword ↦ load_storeWords hword
  rw [loadContext, hword 1 context.r14 rfl, hword 2 context.r13 rfl, hword 3 context.r12 rfl,
    hword 4 context.rbx rfl, hword 5 context.rbp rfl, hword 6 context.rip rfl,
    hword 7 context.rsp rfl, show load 64 _ address = context.r15 from hword 0 context.r15 rfl]

/-- The first half stores the caller's context at `rdi` and changes no register but `rax`. Assumes:
the stack slot of the return address is not in that context. -/
theorem runCode_saveCode (hfits : (s.regs .rdi).toNat + contextSize ≤ 2 ^ 64)
    (hslot : ∀ position, InSlot (s.regs .rsp) position → ¬ InContext (s.regs .rdi) position) :
    (runCode saveCode s).memory =
        storeWords s.memory (s.regs .rdi).toNat (CpuContext.words (callerContext s)) ∧
      ∀ r, r ≠ .rax → (runCode saveCode s).regs r = s.regs r := by
  refine ⟨?_, fun r hr ↦ by simp [runCode, saveCode, Instr.exec, hr]⟩
  have hfield : ∀ offset : Word, offset.toNat ≤ 56 →
      (s.regs .rdi + offset).toNat = (s.regs .rdi).toNat + offset.toNat :=
    fun _ hoffset ↦ toNat_field hfits hoffset
  have hreturn : load 64 (storeWords s.memory (s.regs .rdi).toNat
      [s.regs .r15, s.regs .r14, s.regs .r13, s.regs .r12, s.regs .rbx, s.regs .rbp])
        (s.regs .rsp).toNat = load 64 s.memory (s.regs .rsp).toNat := by
    refine load_congr fun position hge hlt ↦ storeWords_apply_of_disjoint ?_
    have houtside := hslot position ⟨hge, hlt⟩
    rw [InContext, contextSize] at houtside
    simp only [List.length_cons, List.length_nil]
    omega
  simp only [storeWords] at hreturn
  simp [runCode, saveCode, Instr.exec, CpuContext.words, callerContext, storeWords, hfield, hreturn]

/-- The second half loads the context at `rsi`, writes its return address to its stack and returns
there. -/
theorem runCode_restoreCode (hfits : (s.regs .rsi).toNat + contextSize ≤ 2 ^ 64) :
    Resumed (runCode restoreCode s) (loadContext s.memory (s.regs .rsi).toNat) ∧
      (runCode restoreCode s).memory =
        store s.memory (loadContext s.memory (s.regs .rsi).toNat).rsp.toNat
          (loadContext s.memory (s.regs .rsi).toNat).rip := by
  have hfield : ∀ offset : Word, offset.toNat ≤ 56 →
      (s.regs .rsi + offset).toNat = (s.regs .rsi).toNat + offset.toNat :=
    fun _ hoffset ↦ toNat_field hfits hoffset
  refine ⟨?_, ?_⟩
  · constructor <;> simp [runCode, restoreCode, Instr.exec, loadContext, hfield, load_store]
  · simp [runCode, restoreCode, Instr.exec, loadContext, hfield]

end Halves

/-- What `switch_context` does: the caller's context is saved at `rdi`, the machine continues as the
context at `rsi` says, and the one other store is to the incoming stack slot. Assumes: the contexts
do not wrap, and the caller's stack slot is not in its own context. -/
theorem runCode_switchContextCode {s : Machine}
    (hold : (s.regs .rdi).toNat + contextSize ≤ 2 ^ 64)
    (hnew : (s.regs .rsi).toNat + contextSize ≤ 2 ^ 64)
    (hslot : ∀ position, InSlot (s.regs .rsp) position → ¬ InContext (s.regs .rdi) position) :
    ∃ saved, saved = storeWords s.memory (s.regs .rdi).toNat (CpuContext.words (callerContext s)) ∧
      Resumed (runCode switchContextCode s) (loadContext saved (s.regs .rsi).toNat) ∧
      (runCode switchContextCode s).memory =
        store saved (loadContext saved (s.regs .rsi).toNat).rsp.toNat
          (loadContext saved (s.regs .rsi).toNat).rip := by
  obtain ⟨hmemory, hregs⟩ := runCode_saveCode hold hslot
  have hsplit : runCode switchContextCode s = runCode restoreCode (runCode saveCode s) := by
    rw [runCode, switchContextCode, List.foldl_append]
    rfl
  have hrsi : (runCode saveCode s).regs .rsi = s.regs .rsi := hregs .rsi (by decide)
  have hrestore := runCode_restoreCode (s := runCode saveCode s) (by rw [hrsi]; exact hnew)
  rw [hrsi, hmemory, ← hsplit] at hrestore
  exact ⟨_, rfl, hrestore⟩

end Colix.Arch
