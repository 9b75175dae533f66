import Colix.Arch.FirstDispatch

/-!
# The way to user mode

The first dispatch of a process that `proc_create_elf` made: `switch_context` returns to
`proc_entry_user`, which loads three fields of the process by hard-coded offsets and jumps to
`enter_user_mode`, which builds the frame for `iretq` by hand. `offsetOf` computes the offsets of
`process_t` by the layout rules of C, and `gdtInit` the segment descriptors the frame's selectors
name. `enter_user_mode` is the one of `kernel/main.c`; its operands are its argument registers.
-/

set_option autoImplicit false
set_option relaxedAutoImplicit false

namespace Colix.Arch

open Foundation Proc

/-! ### Segment descriptors -/

/-- `GDT_NORMAL_ENTRIES`. -/
abbrev gdtNormalEntries : ℕ := 6

/-- `gdt_entry_t`. -/
structure GdtEntry where
  limitLow : BitVec 16
  baseLow : BitVec 16
  baseMid : Byte
  access : Byte
  granularity : Byte
  baseHigh : Byte
  deriving DecidableEq

/-- `gdt`. -/
abbrev Gdt := Fin gdtNormalEntries → GdtEntry

/-- `set_entry`. -/
def setEntry (gdt : Gdt) (i : Fin gdtNormalEntries) (base limit : Word32) (access gran : Byte) :
    Gdt :=
  Function.update gdt i
    { limitLow := (limit &&& 0xFFFF#32).setWidth 16
      baseLow := (base &&& 0xFFFF#32).setWidth 16
      baseMid := (base >>> 16 &&& 0xFF#32).setWidth 8
      access := access
      granularity := (limit >>> 16 &&& 0x0F#32).setWidth 8 ||| (gran &&& 0xF0#8)
      baseHigh := (base >>> 24 &&& 0xFF#32).setWidth 8 }

/-- The code and data descriptors of `gdt_init`. -/
def gdtInit (gdt : Gdt) : Gdt :=
  let gdt := setEntry gdt 0 0#32 0#32 0#8 0#8
  let gdt := setEntry gdt 1 0#32 0xFFFFF#32 0x9A#8 0xA0#8
  let gdt := setEntry gdt 2 0#32 0xFFFFF#32 0x92#8 0xC0#8
  -- the placeholder that SYSRET wants, 32-bit
  let gdt := setEntry gdt 3 0#32 0xFFFFF#32 0xFA#8 0xCF#8
  let gdt := setEntry gdt 4 0#32 0xFFFFF#32 0xF2#8 0xC0#8
  setEntry gdt 5 0#32 0xFFFFF#32 0xFA#8 0xA0#8

namespace GdtEntry

variable (entry : GdtEntry)

/-- The descriptor is present and of ring 3, for code or data rather than a system segment. -/
def User : Prop :=
  entry.access &&& 0xF0#8 = 0xF0#8

/-- A ring-3 code descriptor with the L bit set. -/
def UserCode64 : Prop :=
  entry.User ∧ entry.access.getLsbD 3 = true ∧ entry.granularity.getLsbD 5 = true

/-- A ring-3 data descriptor, writable. -/
def UserData : Prop :=
  entry.User ∧ entry.access.getLsbD 3 = false ∧ entry.access.getLsbD 1 = true

instance : Decidable entry.UserCode64 := inferInstanceAs (Decidable (_ = _ ∧ _ ∧ _))

instance : Decidable entry.UserData := inferInstanceAs (Decidable (_ = _ ∧ _ ∧ _))

end GdtEntry

/-- The descriptor that a selector names: bits 3 to 15 are the index, and bit 2 is clear for the
GDT. -/
def descriptorOf (gdt : Gdt) (selector : Word) : Option GdtEntry :=
  let index := (selector &&& 0xFFFF#64) >>> 3
  if h : selector.getLsbD 2 = false ∧ index.toNat < gdtNormalEntries then
    some (gdt ⟨index.toNat, h.2⟩)
  else none

/-! ### The layout of `process_t` -/

/-- The fields of `process_t`, in their order. -/
inductive ProcessField
  | pid | ppid | state | exitCode | userMode | pml4 | context | kernelRsp | sleepTicks | waitPid
  | msgQueue | msgTail | msgCount | fds | kstack | brk | tf | name | cr3 | isUser | started
  | userRip | userRsp | userSp
  deriving DecidableEq

/-- The size and the alignment of a field: `pid_t`, the enumeration and `bool` are four bytes. -/
def ProcessField.sizeAlign : ProcessField → ℕ × ℕ
  | .pid | .ppid | .state | .exitCode | .userMode | .waitPid | .msgCount | .isUser | .started =>
    (4, 4)
  | .context => (contextSize, 8)
  | .fds => (16 * 16, 8)
  | .name => (16, 1)
  | .pml4 | .kernelRsp | .sleepTicks | .msgQueue | .msgTail | .kstack | .brk | .tf | .cr3
  | .userRip | .userRsp | .userSp => (8, 8)

/-- `process_t` as it is declared. -/
def processFields : List ProcessField :=
  [.pid, .ppid, .state, .exitCode, .userMode, .pml4, .context, .kernelRsp, .sleepTicks, .waitPid,
    .msgQueue, .msgTail, .msgCount, .fds, .kstack, .brk, .tf, .name, .cr3, .isUser, .started,
    .userRip, .userRsp, .userSp]

/-- Fields laid out from an offset, each at the next multiple of its alignment: where each begins,
and the end of the last. -/
def layFields : List ProcessField → ℕ → List (ProcessField × ℕ) × ℕ
  | [], offset => ([], offset)
  | field :: fields, offset =>
    let (size, align) := field.sizeAlign
    let begins := (offset + align - 1) / align * align
    let (laid, ends) := layFields fields (begins + size)
    ((field, begins) :: laid, ends)

/-- `offsetof(process_t, field)`. -/
def offsetOf (field : ProcessField) : ℕ :=
  ((layFields processFields 0).1.lookup field).getD 0

/-- `sizeof(process_t)`, a multiple of its alignment as it stands. -/
abbrev processSize : ℕ := 480

/-- `USER_RIP_OFFSET`, `USER_SP_OFFSET` and `CR3_OFFSET` of `proc_entry_user.asm`. -/
abbrev userRipOffset : Word := 0x1C8#64
abbrev userSpOffset : Word := 0x1D8#64
abbrev cr3Offset : Word := 0x1B8#64

/-- The assembly's offsets are those of the fields they are named after, so the stack pointer it
loads is `user_sp` and not `user_rsp`. -/
theorem entry_offsets : userRipOffset.toNat = offsetOf .userRip ∧
    userSpOffset.toNat = offsetOf .userSp ∧ cr3Offset.toNat = offsetOf .cr3 ∧
      offsetOf .context = 32 ∧ (layFields processFields 0).2 = processSize := by
  decide

/-! ### The code -/

/-- The data segment registers. -/
inductive DataSegment
  | ds | es | fs | gs
  deriving DecidableEq

/-- The machine of `switch_context` with the registers that the way to user mode names besides. -/
structure Cpu where
  machine : Machine
  rdx : Word
  cr3 : Word
  segments : DataSegment → BitVec 16

/-- Instructions of `proc_entry_user` and `enter_user_mode`: `mov dst, [rel symbol]`,
`mov dst, [base + offset]` (also to `rdx`), `mov ax, value`, `mov segment, ax`, `push value` and
`push src`. The jump between the two is the order of the code. -/
inductive EntryInstr
  | movSymbol (dst : Reg) (symbol : Word)
  | movLoad (dst base : Reg) (offset : Word)
  | movLoadRdx (base : Reg) (offset : Word)
  | movAx (value : BitVec 16)
  | movSegment (segment : DataSegment)
  | pushImm (value : Word)
  | pushReg (src : Reg)

/-- A register written. -/
def Machine.setReg (s : Machine) (dst : Reg) (value : Word) : Machine :=
  { s with regs := Function.update s.regs dst value }

/-- `push`. -/
def Machine.push (s : Machine) (value : Word) : Machine :=
  { s with
    memory := store s.memory (s.regs .rsp - 8#64).toNat value
    regs := Function.update s.regs .rsp (s.regs .rsp - 8#64) }

/-- One instruction. -/
def EntryInstr.exec (s : Cpu) : EntryInstr → Cpu
  | .movSymbol dst symbol =>
    { s with machine := s.machine.setReg dst (load 64 s.machine.memory symbol.toNat) }
  | .movLoad dst base offset =>
    { s with machine := Instr.exec s.machine (.movLoad dst base offset) }
  | .movLoadRdx base offset =>
    { s with rdx := load 64 s.machine.memory (s.machine.regs base + offset).toNat }
  | .movAx value =>
    { s with
      machine := s.machine.setReg .rax ((s.machine.regs .rax &&& ~~~0xFFFF#64) |||
        value.setWidth 64) }
  | .movSegment segment =>
    { s with segments := Function.update s.segments segment ((s.machine.regs .rax).setWidth 16) }
  | .pushImm value => { s with machine := s.machine.push value }
  | .pushReg src => { s with machine := s.machine.push (s.machine.regs src) }

/-- Instructions one after another. -/
def runEntry (code : List EntryInstr) (s : Cpu) : Cpu :=
  code.foldl EntryInstr.exec s

/-- `proc_entry_user`, given the address of `current_proc`. -/
def procEntryUserCode (currentProc : Word) : List EntryInstr :=
  [.movSymbol .rbx currentProc,
    .movLoad .rdi .rbx userRipOffset,
    .movLoad .rsi .rbx userSpOffset,
    .movLoadRdx .rbx cr3Offset]

/-- `enter_user_mode(rip, rsp, cr3)` before its `iretq`. -/
def enterUserModeCode : List EntryInstr :=
  [.movAx 0x23#16,
    .movSegment .ds,
    .movSegment .es,
    .movSegment .fs,
    .movSegment .gs,
    .pushImm 0x23#64,
    .pushReg .rsi,
    .pushImm 0x202#64,
    .pushImm 0x1B#64,
    .pushReg .rdi]

/-- What `iretq` pops, in the order it pops it. -/
structure IretFrame where
  rip : Word
  cs : Word
  rflags : Word
  rsp : Word
  ss : Word
  deriving DecidableEq

/-- The word at a depth of the stack, the top being zero. -/
def stackWord (s : Machine) (depth : ℕ) : Word :=
  load 64 s.memory (s.regs .rsp + BitVec.ofNat 64 (8 * depth)).toNat

/-- The frame at the stack pointer. -/
def iretFrame (s : Machine) : IretFrame where
  rip := stackWord s 0
  cs := stackWord s 1
  rflags := stackWord s 2
  rsp := stackWord s 3
  ss := stackWord s 4

/-- From the call of `switch_context` to the `iretq`, when it returns to `proc_entry_user`. -/
def reachIretq (entryPoints : EntryPoints) (currentProc : Word) (s : Cpu) : Option Cpu :=
  let s := { s with machine := runCode switchContextCode s.machine }
  if s.machine.rip = entryPoints.procEntryUser then
    some (runEntry (procEntryUserCode currentProc ++ enterUserModeCode) s)
  else none

/-- The machine at the `iretq` starts the process as it was created. -/
structure StartsAsCreated (gdt : Gdt) (s : Cpu) (process : Process) (entry : Word) : Prop where
  rip : (iretFrame s.machine).rip = entry
  rsp : (iretFrame s.machine).rsp = process.userRsp
  cr3 : s.cr3 = process.cr3
  cs : ∃ descriptor, descriptorOf gdt (iretFrame s.machine).cs = some descriptor ∧
    descriptor.UserCode64
  ss : ∃ descriptor, descriptorOf gdt (iretFrame s.machine).ss = some descriptor ∧
    descriptor.UserData

/-! ### The frame -/

theorem runEntry_append (code rest : List EntryInstr) (s : Cpu) :
    runEntry (code ++ rest) s = runEntry rest (runEntry code s) :=
  List.foldl_append

/-- No instruction on the way writes CR3. -/
theorem runEntry_cr3 (code : List EntryInstr) (s : Cpu) : (runEntry code s).cr3 = s.cr3 := by
  induction code generalizing s with
  | nil => rfl
  | cons instr code ih =>
    have hinstr : (instr.exec s).cr3 = s.cr3 := by cases instr <;> simp only [EntryInstr.exec]
    exact (ih (instr.exec s)).trans hinstr

section Push

variable (s : Machine) (value : Word)

@[simp] theorem push_regs_of_ne {r : Reg} (hne : r ≠ .rsp) : (s.push value).regs r = s.regs r :=
  Function.update_of_ne hne _ _

theorem push_rsp : (s.push value).regs .rsp = s.regs .rsp - 8#64 :=
  Function.update_self Reg.rsp _ s.regs

/-- The word pushed last is on top. -/
@[simp] theorem stackWord_push_zero : stackWord (s.push value) 0 = value := by
  rw [stackWord, push_rsp, Nat.mul_zero, show BitVec.ofNat 64 0 = 0#64 from rfl, BitVec.add_zero]
  exact load_store (by decide) value

/-- The words below are one deeper, even where the stack pointer wraps. -/
theorem stackWord_push_succ {depth : ℕ} (hdepth : depth < 8) :
    stackWord (s.push value) (depth + 1) = stackWord s depth := by
  have hoffset : (BitVec.ofNat 64 (8 * (depth + 1))).toNat = 8 * (depth + 1) :=
    Nat.mod_eq_of_lt (by omega)
  have hslot : s.regs .rsp - 8#64 + BitVec.ofNat 64 (8 * (depth + 1)) =
      s.regs .rsp + BitVec.ofNat 64 (8 * depth) := by
    rw [Nat.mul_succ, BitVec.ofNat_add]
    bv_omega
  rw [stackWord, push_rsp, hslot]
  refine load_store_of_disjoint value ?_
  rw [← hslot, BitVec.toNat_add, hoffset]
  have hlt := (s.regs .rsp - 8#64).isLt
  omega

end Push

/-- The frame that `enter_user_mode` builds. -/
theorem iretFrame_enterUserMode (s : Cpu) :
    iretFrame (runEntry enterUserModeCode s).machine =
      ⟨s.machine.regs .rdi, 0x1B#64, 0x202#64, s.machine.regs .rsi, 0x23#64⟩ := by
  obtain ⟨m, hm⟩ : ∃ m, m = s.machine.setReg .rax
      ((s.machine.regs .rax &&& ~~~0xFFFF#64) ||| (0x23#16).setWidth 64) := ⟨_, rfl⟩
  have hrdi : m.regs .rdi = s.machine.regs .rdi := by rw [hm]; rfl
  have hrsi : m.regs .rsi = s.machine.regs .rsi := by rw [hm]; rfl
  have hmachine : (runEntry enterUserModeCode s).machine =
      ((((m.push 0x23#64).push (m.regs .rsi)).push 0x202#64).push 0x1B#64).push (m.regs .rdi) := by
    rw [hm]
    rfl
  rw [hmachine, iretFrame, stackWord_push_zero, stackWord_push_succ _ _ (by decide),
    stackWord_push_zero, stackWord_push_succ _ _ (by decide), stackWord_push_succ _ _ (by decide),
    stackWord_push_zero, stackWord_push_succ _ _ (by decide), stackWord_push_succ _ _ (by decide),
    stackWord_push_succ _ _ (by decide), stackWord_push_zero, stackWord_push_succ _ _ (by decide),
    stackWord_push_succ _ _ (by decide), stackWord_push_succ _ _ (by decide),
    stackWord_push_succ _ _ (by decide), stackWord_push_zero, hrdi, hrsi]

/-! ### The kernel variables in memory -/

/-- Where the linker put `proc_table` and `current_proc`, apart from each other. -/
structure KernelVariables where
  procTable : Word
  currentProc : Word
  fits : procTable.toNat + procMax * processSize ≤ 2 ^ 64
  apart : currentProc.toNat + 8 ≤ procTable.toNat ∨
    procTable.toNat + procMax * processSize ≤ currentProc.toNat

namespace KernelVariables

variable (image : KernelVariables)

/-- `&proc_table[p]`. -/
def entry (p : ProcIndex) : Word :=
  image.procTable + BitVec.ofNat 64 (processSize * p)

/-- The bytes of the variables. -/
def Holds (position : ℕ) : Prop :=
  (image.procTable.toNat ≤ position ∧
      position < image.procTable.toNat + procMax * processSize) ∨
    (image.currentProc.toNat ≤ position ∧ position < image.currentProc.toNat + 8)

theorem toNat_entry (p : ProcIndex) :
    (image.entry p).toNat = image.procTable.toNat + 480 * p := by
  have hfits : image.procTable.toNat + 64 * 480 ≤ 2 ^ 64 := image.fits
  have hp : (p : ℕ) < 64 := p.isLt
  have hoffset : (BitVec.ofNat 64 (480 * p)).toNat = 480 * p := Nat.mod_eq_of_lt (by omega)
  rw [entry, BitVec.toNat_add, hoffset]
  omega

/-- The entries are in the table. -/
theorem holds_entry {p : ProcIndex} {position : ℕ} (hge : (image.entry p).toNat ≤ position)
    (hlt : position < (image.entry p).toNat + 480) : image.Holds position := by
  have hp : (p : ℕ) < 64 := p.isLt
  rw [image.toNat_entry] at hge hlt
  refine Or.inl ⟨by omega, ?_⟩
  change position < image.procTable.toNat + 64 * 480
  omega

/-- The variable `current_proc` is in no entry. -/
theorem currentProc_apart (p : ProcIndex) : image.currentProc.toNat + 8 ≤ (image.entry p).toNat ∨
    (image.entry p).toNat + 480 ≤ image.currentProc.toNat := by
  have hapart : image.currentProc.toNat + 8 ≤ image.procTable.toNat ∨
    image.procTable.toNat + 64 * 480 ≤ image.currentProc.toNat := image.apart
  have hp : (p : ℕ) < 64 := p.isLt
  rw [image.toNat_entry]
  omega

theorem entry_fits (p : ProcIndex) : (image.entry p).toNat + 480 ≤ 2 ^ 64 := by
  have hfits : image.procTable.toNat + 64 * 480 ≤ 2 ^ 64 := image.fits
  have hp : (p : ℕ) < 64 := p.isLt
  rw [image.toNat_entry]
  omega

/-- The address of a field of an entry. -/
theorem toNat_field (p : ProcIndex) {offset : Word} (hoffset : offset.toNat ≤ 472) :
    (image.entry p + offset).toNat = (image.entry p).toNat + offset.toNat := by
  have hfits := image.entry_fits p
  rw [BitVec.toNat_add]
  omega

end KernelVariables

/-- The start fields of the process at an address. -/
def loadStartFields (memory : Memory) (address : ℕ) : StartFields where
  context := loadContext memory (address + offsetOf .context)
  cr3 := load 64 memory (address + offsetOf .cr3)
  userRip := load 64 memory (address + offsetOf .userRip)
  userRsp := load 64 memory (address + offsetOf .userRsp)
  userSp := load 64 memory (address + offsetOf .userSp)

/-- The machine as `schedule` calls `switch_context(&old->context, &p->context)`: the variables are
in memory, and neither stack overlaps them. -/
structure SwitchCalled (image : KernelVariables) (s : Machine) (k : Kernel)
    (switch : ContextSwitch) : Prop where
  rdi : s.regs .rdi = image.entry switch.old + BitVec.ofNat 64 (offsetOf .context)
  rsi : s.regs .rsi = image.entry switch.new + BitVec.ofNat 64 (offsetOf .context)
  current : load 64 s.memory image.currentProc.toNat = image.entry switch.new
  stored : loadStartFields s.memory (image.entry switch.new).toNat =
    startFields (k.procTable switch.new)
  caller_stack : ∀ position, InSlot (s.regs .rsp) position → ¬ image.Holds position
  stack : ∀ position, InSlot (k.procTable switch.new).context.rsp position →
    ¬ image.Holds position

section SwitchCalled

variable {image : KernelVariables} {s : Machine} {k : Kernel} {switch : ContextSwitch}

/-- What `switch_context` leaves: control is at the new process's return address, and no variable
outside the old process's entry has changed. -/
theorem SwitchCalled.switched (hcalled : SwitchCalled image s k switch)
    (hne : switch.old ≠ switch.new) :
    (runCode switchContextCode s).rip = (k.procTable switch.new).context.rip ∧
      load 64 (runCode switchContextCode s).memory image.currentProc.toNat =
        image.entry switch.new ∧
      ∀ offset, offset ≤ 472 →
        load 64 (runCode switchContextCode s).memory
            ((image.entry switch.new).toNat + offset) =
          load 64 s.memory ((image.entry switch.new).toNat + offset) := by
  have hindex : (switch.old : ℕ) ≠ switch.new := fun heq ↦ hne (Fin.ext heq)
  have hold := image.toNat_entry switch.old
  have hnew := image.toNat_entry switch.new
  have holdFits := image.entry_fits switch.old
  have hnewFits := image.entry_fits switch.new
  have hapart := image.currentProc_apart switch.old
  have hrdi : (s.regs .rdi).toNat = (image.entry switch.old).toNat + 32 := by
    rw [hcalled.rdi]
    exact image.toNat_field switch.old (by decide)
  have hrsi : (s.regs .rsi).toNat = (image.entry switch.new).toNat + 32 := by
    rw [hcalled.rsi]
    exact image.toNat_field switch.new (by decide)
  obtain ⟨saved, hsaved, hresumed, hmemory⟩ := runCode_switchContextCode (s := s)
    (by rw [contextSize]; omega) (by rw [contextSize]; omega) (by
      intro position hslot hcontext
      rw [InContext, contextSize] at hcontext
      exact hcalled.caller_stack position hslot
        (image.holds_entry (p := switch.old) (by omega) (by omega)))
  -- the caller's context is stored in its own entry
  have hkept : ∀ position, image.Holds position →
      (position < (image.entry switch.old).toNat ∨
        (image.entry switch.old).toNat + 480 ≤ position) →
      saved position = s.memory position := by
    intro position _ hother
    rw [hsaved]
    refine storeWords_apply_of_disjoint ?_
    simp only [CpuContext.words, List.length_cons, List.length_nil]
    omega
  have hcontext : loadContext saved (s.regs .rsi).toNat = (k.procTable switch.new).context := by
    have hstored := congrArg StartFields.context hcalled.stored
    change loadContext s.memory ((image.entry switch.new).toNat + 32) =
      (k.procTable switch.new).context at hstored
    rw [← hrsi] at hstored
    rw [← hstored]
    refine loadContext_congr fun position hposition ↦ ?_
    rw [InContext, contextSize] at hposition
    exact hkept position (image.holds_entry (p := switch.new) (by omega) (by omega)) (by omega)
  rw [hcontext] at hresumed hmemory
  -- and the return address in no variable
  have hfinal : ∀ position, image.Holds position →
      (position < (image.entry switch.old).toNat ∨
        (image.entry switch.old).toNat + 480 ≤ position) →
      (runCode switchContextCode s).memory position = s.memory position := by
    intro position hholds hother
    have hslot : ¬ InSlot (k.procTable switch.new).context.rsp position := fun hslot ↦
      hcalled.stack position hslot hholds
    rw [InSlot] at hslot
    rw [hmemory, ← hkept position hholds hother]
    exact store_apply_of_disjoint _ (by omega)
  refine ⟨hresumed.rip, ?_, fun offset hoffset ↦ ?_⟩
  · rw [← hcalled.current]
    exact load_congr fun position hge hlt ↦
      hfinal position (Or.inr (by omega)) (by omega)
  · exact load_congr fun position hge hlt ↦
      hfinal position (image.holds_entry (p := switch.new) (by omega) (by omega)) (by omega)

/-- `proc_entry_user` passes `user_rip` and `user_sp` on. -/
theorem runEntry_procEntryUser {image : KernelVariables} {p : ProcIndex} (cpu : Cpu)
    (hcurrent : load 64 cpu.machine.memory image.currentProc.toNat = image.entry p) :
    (runEntry (procEntryUserCode image.currentProc) cpu).machine.regs .rdi =
        load 64 cpu.machine.memory ((image.entry p).toNat + offsetOf .userRip) ∧
      (runEntry (procEntryUserCode image.currentProc) cpu).machine.regs .rsi =
        load 64 cpu.machine.memory ((image.entry p).toNat + offsetOf .userSp) := by
  obtain ⟨hrip, hsp, -, -⟩ := entry_offsets
  constructor
  · rw [← hrip, ← image.toNat_field p (by decide), ← hcurrent]
    rfl
  · rw [← hsp, ← image.toNat_field p (by decide), ← hcurrent]
    rfl

end SwitchCalled

/-! ### The first dispatch -/

/-- The selector 0x1B names the placeholder. -/
theorem descriptorOf_userCode32 (gdt : Gdt) : descriptorOf (gdtInit gdt) 0x1B#64 =
    some ⟨0xFFFF#16, 0#16, 0#8, 0xFA#8, 0xCF#8, 0#8⟩ := by
  have hplaceholder : gdtInit gdt 3 = ⟨0xFFFF#16, 0#16, 0#8, 0xFA#8, 0xCF#8, 0#8⟩ := by
    simp [gdtInit, setEntry]
  exact congrArg some hplaceholder

/-- Whatever the machine is at the call of `switch_context`, the code selector of the frame names
the 32-bit descriptor. -/
theorem not_startsAsCreated {entryPoints : EntryPoints} {currentProc entry : Word} {s final : Cpu}
    (gdt : Gdt) (process : Process)
    (hreach : reachIretq entryPoints currentProc s = some final) :
    ¬ StartsAsCreated (gdtInit gdt) final process entry := by
  have hcs : (iretFrame final.machine).cs = 0x1B#64 := by
    rw [reachIretq] at hreach
    split_ifs at hreach
    rw [Option.some.injEq, runEntry_append] at hreach
    rw [← hreach]
    exact congrArg IretFrame.cs (iretFrame_enterUserMode _)
  rintro ⟨-, -, -, ⟨descriptor, hselected, hcode⟩, -⟩
  rw [hcs, descriptorOf_userCode32, Option.some.injEq] at hselected
  rw [← hselected] at hcode
  exact absurd hcode (by decide)

/-- The frame of a first dispatch: the entry point is right, the stack pointer is zero. -/
theorem SwitchCalled.reaches {entryPoints : EntryPoints} {pages : ElfPages} {entry : Word}
    {image : KernelVariables} {s : Cpu} {k : Kernel} {switch : ContextSwitch}
    (hcalled : SwitchCalled image s.machine k switch) (hne : switch.old ≠ switch.new)
    (hfields : startFields (k.procTable switch.new) = createdFields entryPoints pages entry) :
    ∃ final, reachIretq entryPoints image.currentProc s = some final ∧
      iretFrame final.machine = ⟨entry, 0x1B#64, 0x202#64, 0#64, 0x23#64⟩ ∧
        final.cr3 = s.cr3 := by
  obtain ⟨hrip, hcurrent, hkept⟩ := hcalled.switched hne
  have hstored := hcalled.stored.trans hfields
  have hentryPoint : (k.procTable switch.new).context.rip = entryPoints.procEntryUser :=
    congrArg (fun fields : StartFields ↦ fields.context.rip) hfields
  have huserRip := congrArg StartFields.userRip hstored
  have huserSp := congrArg StartFields.userSp hstored
  simp only [loadStartFields, createdFields] at huserRip huserSp
  rw [← hkept _ (by decide)] at huserRip huserSp
  rw [hentryPoint] at hrip
  obtain ⟨switched, hswitched⟩ : ∃ switched : Cpu,
    switched = { s with machine := runCode switchContextCode s.machine } := ⟨_, rfl⟩
  have hmachine : switched.machine = runCode switchContextCode s.machine := by rw [hswitched]
  have hsame : switched.cr3 = s.cr3 := by rw [hswitched]
  rw [← hmachine] at hrip hcurrent huserRip huserSp
  obtain ⟨hrdi, hrsi⟩ := runEntry_procEntryUser switched hcurrent
  rw [huserRip] at hrdi
  rw [huserSp] at hrsi
  have hframe := iretFrame_enterUserMode
    (runEntry (procEntryUserCode image.currentProc) switched)
  rw [hrdi, hrsi] at hframe
  refine ⟨runEntry (procEntryUserCode image.currentProc ++ enterUserModeCode) switched, ?_, ?_, ?_⟩
  · rw [reachIretq, ← hswitched]
    exact if_pos hrip
  · rw [runEntry_append]
    exact hframe
  · rw [runEntry_cr3, hsame]

/-- The first dispatch of a process that `proc_create_elf` returned never starts it as it was
created. When the variables are in memory, the frame has the entry point it should, a stack pointer
of zero and the 32-bit code selector, and CR3 is what it was. -/
theorem firstDispatch_not_asCreated {entryPoints : EntryPoints} {pages : ElfPages} {entry : Word}
    {p old : ProcIndex} {events : List PendingEvent} {k next : Kernel} {event : SchedulerEvent}
    (hrun : (pendingSystem entryPoints pages entry p).Run events k)
    (hdispatch : event.perform entryPoints k = (next, some ⟨old, p⟩))
    (gdt : Gdt) (image : KernelVariables) (s : Cpu) :
    (∀ final, reachIretq entryPoints image.currentProc s = some final →
        ¬ StartsAsCreated (gdtInit gdt) final (next.procTable p) entry) ∧
      (SwitchCalled image s.machine next ⟨old, p⟩ →
        ∃ final, reachIretq entryPoints image.currentProc s = some final ∧
          iretFrame final.machine = ⟨entry, 0x1B#64, 0x202#64, 0#64, 0x23#64⟩ ∧
          final.cr3 = s.cr3 ∧ (next.procTable p).userRsp = userStackTop ∧
          (next.procTable p).cr3 = pages.newPml4Pa) := by
  obtain ⟨hne, hfields⟩ := (PendingInvariant.of_run hrun).dispatch hdispatch
  refine ⟨fun final hreach ↦ not_startsAsCreated gdt _ hreach, fun hcalled ↦ ?_⟩
  obtain ⟨final, hreach, hframe, hcr3⟩ := hcalled.reaches hne hfields
  exact ⟨final, hreach, hframe, hcr3, congrArg StartFields.userRsp hfields,
    congrArg StartFields.cr3 hfields⟩

/-- The kernel in which the shell has just been created after idle. -/
def shellCreated : Kernel :=
  (procCreateElf ⟨1#64, 2#64⟩ shellPages.1 shellPages.2
    (procCreate ⟨1#64, 2#64⟩ 0x400018#64 [] 3#64 (procInit Kernel.bss)).2).2

/-- The kernel in which the shell waits for its first dispatch, with idle current. -/
def shellPending : Kernel :=
  startScheduler shellCreated 0

/-- A place for the variables. -/
def shellImage : KernelVariables where
  procTable := 0x110000#64
  currentProc := 0x10F000#64
  fits := by decide
  apart := by decide

/-- The machine at idle's call of `switch_context`, on a stack at 0x90000. -/
def shellCpu : Cpu where
  machine :=
    { regs := fun r ↦
        match r with
        | .rdi => shellImage.entry 0 + 32#64
        | .rsi => shellImage.entry 1 + 32#64
        | .rsp => 0x90000#64
        | _ => 0#64
      rip := 0#64
      memory :=
        storeWords
          (storeWords (store (fun _ ↦ 0#8) 0x10F000 (shellImage.entry 1))
            ((shellImage.entry 1).toNat + 32)
            [0#64, 0#64, 0#64, 0#64, 0#64, 0#64, 2#64, 0x803000#64])
          ((shellImage.entry 1).toNat + 440) [0x801000#64, 0#64, 0x400000#64, userStackTop, 0#64] }
  rdx := 0#64
  cr3 := 0x1000#64
  segments := fun _ ↦ 0x10#16

theorem run_shellPending : ∃ events,
    (pendingSystem ⟨1#64, 2#64⟩ shellPages.1 shellPages.2 1).Run events shellPending := by
  have hstart : (pendingSystem ⟨1#64, 2#64⟩ shellPages.1 shellPages.2 1).start shellCreated :=
    ⟨(procCreate ⟨1#64, 2#64⟩ 0x400018#64 [] 3#64 (procInit Kernel.bss)).2,
      fun i hi ↦ (nomatch (show none = some i from hi)), rfl⟩
  have hstep : (pendingSystem ⟨1#64, 2#64⟩ shellPages.1 shellPages.2 1).step shellCreated
      (.startScheduler 0) shellPending := ⟨by decide, by decide, rfl⟩
  exact ⟨_, (TransitionSystem.Run.start hstart).step hstep⟩

theorem perform_yield (entryPoints : EntryPoints) (k : Kernel) :
    SchedulerEvent.perform entryPoints k (.call .yield) = procYield k :=
  rfl

theorem switch_shellPending : (procYield shellPending).2 = some ⟨0, 1⟩ := by
  decide

theorem perform_shellPending : SchedulerEvent.perform ⟨1#64, 2#64⟩ shellPending (.call .yield) =
    ((procYield shellPending).1, some ⟨0, 1⟩) := by
  rw [perform_yield, ← switch_shellPending]

/-- The variables lie between 0x10F000 and 0x118000. -/
theorem not_holds_shellImage {position : ℕ}
    (hposition : position < 0x10F000 ∨ 0x118000 ≤ position) :
    ¬ shellImage.Holds position := by
  change ¬ ((0x110000 ≤ position ∧ position < 0x110000 + 64 * 480) ∨
    (0x10F000 ≤ position ∧ position < 0x10F000 + 8))
  omega

theorem switchCalled_shellCpu :
    SwitchCalled shellImage shellCpu.machine (procYield shellPending).1 ⟨0, 1⟩ where
  rdi := rfl
  rsi := rfl
  current := by decide +kernel
  stored := by decide +kernel
  caller_stack := by
    intro position hslot
    exact not_holds_shellImage (Or.inl (hslot.2.trans_le (by decide)))
  stack := by
    have hrsp : ((procYield shellPending).1.procTable 1).context.rsp = 0x803000#64 := by decide
    intro position hslot
    rw [hrsp] at hslot
    exact not_holds_shellImage (Or.inr (le_trans (by decide) hslot.1))

/-- The first dispatch of the shell, when idle yields: its stack pointer in user mode is zero. -/
theorem shell_not_asCreated : ∃ (events : List PendingEvent) (final : Cpu),
    (pendingSystem ⟨1#64, 2#64⟩ shellPages.1 shellPages.2 1).Run events shellPending ∧
      (procYield shellPending).2 = some ⟨0, 1⟩ ∧
      SwitchCalled shellImage shellCpu.machine (procYield shellPending).1 ⟨0, 1⟩ ∧
      reachIretq ⟨1#64, 2#64⟩ shellImage.currentProc shellCpu = some final ∧
      (iretFrame final.machine).rsp = 0#64 ∧
      ∀ gdt, ¬ StartsAsCreated (gdtInit gdt) final ((procYield shellPending).1.procTable 1)
        shellPages.2 := by
  obtain ⟨events, hrun⟩ := run_shellPending
  obtain ⟨hne, hfields⟩ := (PendingInvariant.of_run hrun).dispatch perform_shellPending
  obtain ⟨final, hreach, hframe, -⟩ := switchCalled_shellCpu.reaches hne hfields
  refine ⟨events, final, hrun, switch_shellPending, switchCalled_shellCpu, hreach,
    congrArg IretFrame.rsp hframe, fun gdt ↦ not_startsAsCreated gdt _ hreach⟩

/-- The theorem at that dispatch. -/
theorem firstDispatch_not_asCreated_shell : ∃ final,
    reachIretq ⟨1#64, 2#64⟩ shellImage.currentProc shellCpu = some final ∧
      iretFrame final.machine = ⟨0x400000#64, 0x1B#64, 0x202#64, 0#64, 0x23#64⟩ := by
  obtain ⟨events, hrun⟩ := run_shellPending
  obtain ⟨final, hreach, hframe, -⟩ := (firstDispatch_not_asCreated hrun perform_shellPending
    (fun _ ↦ ⟨0#16, 0#16, 0#8, 0#8, 0#8, 0#8⟩) shellImage shellCpu).2 switchCalled_shellCpu
  exact ⟨final, hreach, hframe⟩

end Colix.Arch
