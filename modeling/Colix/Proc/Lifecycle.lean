import Colix.Proc.Scheduler

/-!
# Process creation

The two creation paths of `kernel/proc/proc.c`, and the part of `kernel_main` that sets up the idle
process and the shell. What comes from outside the process table is an argument: the stack
`kmalloc` returns to `proc_create`, and the pages `pmm_alloc_page` returns to `proc_create_elf`.
The stores these functions make through those addresses are modelled where memory is.
-/

set_option autoImplicit false
set_option relaxedAutoImplicit false

namespace Colix.Proc

/-- The link-time addresses that creation stores into a context. -/
structure EntryPoints where
  procEntrypoint : Word
  procEntryUser : Word

/-- `KERNEL_BASE`. -/
abbrev kernelBase : Word := 0xFFFFFFFF80000000#64

/-- `user_stack_top` of `proc_create_elf`. -/
abbrev userStackTop : Word := 0x00007FFFFFFFE000#64

/-- The pages `proc_create_elf` takes for the process's PML4 and its kernel stack. -/
structure ElfPages where
  newPml4Pa : Word
  kernelStack : Word

/-- `alloc_proc`: the first UNUSED entry, left UNUSED. -/
def allocProc (k : Kernel) : Option ProcIndex :=
  (List.finRange procMax).find? fun i ↦ (k.procTable i).state == .unused

/-- `alloc_proc_slot`: the first UNUSED entry, zeroed and READY. -/
def allocProcSlot (k : Kernel) : Option (ProcIndex × Kernel) :=
  match (List.finRange procMax).find? fun i ↦ (k.procTable i).state == .unused with
  | some i => some (i, k.modify i fun _ ↦ { Process.zero with state := .ready })
  | none => none

/-- `alloc_pid`. -/
def allocPid (k : Kernel) : Pid × Kernel :=
  (k.nextPid, { k with nextPid := k.nextPid + 1 })

/-- `proc_init`. -/
def procInit (k : Kernel) : Kernel :=
  { k with procTable := fun i ↦ { k.procTable i with state := .unused, pid := 0 } }

/-- The name `proc_create` stores: up to 15 characters before the NUL. -/
def copyName (name : List Byte) : List Byte :=
  (name.takeWhile fun c ↦ c != 0#8).take 15

/-- The fields `proc_create` writes. -/
def createdProcess (entryPoints : EntryPoints) (kstack entry : Word) (name : List Byte)
    (pid ppid : Pid) (process : Process) : Process :=
  { process with
    context :=
      { r15 := 0#64
        r14 := 0#64
        r13 := 0#64
        r12 := entry
        rbx := 0#64
        rbp := 0#64
        rip := entryPoints.procEntrypoint
        rsp := kstack + kstackSize }
    kernelRsp := kstack + kstackSize
    pid := pid
    ppid := ppid
    state := .ready
    exitCode := 0
    sleepTicks := 0#64
    msgQueue := none
    msgTail := none
    msgCount := 0#32
    name := copyName name }

/-- `proc_create(name, entry, user)`, given what `kmalloc(KSTACK_SIZE)` returns. -/
def procCreate (entryPoints : EntryPoints) (kstack : Word) (name : List Byte) (entry : Word)
    (k : Kernel) : Option ProcIndex × Kernel :=
  match allocProc k with
  | none => (none, k)
  | some p =>
    if kstack = 0#64 then (none, k)
    else
      (some p,
        { k.modify p (createdProcess entryPoints kstack entry name k.nextPid k.currentPid) with
          nextPid := k.nextPid + 1 })

/-- The fields `proc_create_elf` writes after `alloc_proc_slot`. -/
def createdElfProcess (entryPoints : EntryPoints) (pages : ElfPages) (entry : Word) (pid : Pid)
    (process : Process) : Process :=
  { process with
    pid := pid
    state := .ready
    isUser := true
    started := false
    cr3 := pages.newPml4Pa
    pml4 := pages.newPml4Pa + kernelBase
    userRip := entry
    userRsp := userStackTop
    kernelRsp := pages.kernelStack + 0x1000#64
    context :=
      { process.context with
        rsp := pages.kernelStack + 0x1000#64
        rip := entryPoints.procEntryUser } }

/-- The process-table part of `proc_create_elf(name, elf)`, given the pages it takes. -/
def procCreateElf (entryPoints : EntryPoints) (pages : ElfPages) (entry : Word) (k : Kernel) :
    Option ProcIndex × Kernel :=
  match allocProcSlot k with
  | none => (none, k)
  | some (p, k) =>
    let (pid, k) := allocPid k
    (some p, k.modify p (createdElfProcess entryPoints pages entry pid))

/-- `current_proc = idle; idle->state = PROC_RUNNING`. -/
def startScheduler (k : Kernel) (idle : ProcIndex) : Kernel :=
  { k with currentProc := some idle }.modify idle fun process ↦ { process with state := .running }

/-- `kernel_main` from `proc_init` to the start of the scheduler: the idle process, the shell when
its file loads, and the panics when either cannot be created. Returns the idle entry with the
state. -/
def kernelMain (entryPoints : EntryPoints) (procIdle idleStack : Word)
    (shell : Option (ElfPages × Word)) : Option (ProcIndex × Kernel) :=
  match procCreate entryPoints idleStack [0x69#8, 0x64#8, 0x6C#8, 0x65#8] procIdle
      (procInit Kernel.bss) with
  | (none, _) => none
  | (some idle, k) =>
    match shell with
    | none => some (idle, startScheduler k idle)
    | some (pages, entry) =>
      match procCreateElf entryPoints pages entry k with
      | (none, _) => none
      | (some _, k) => some (idle, startScheduler k idle)

/-- Idle RUNNING and the shell READY. -/
def twoReady : Kernel :=
  ((kernelMain ⟨1#64, 2#64⟩ 3#64 0x400018#64
    (some (⟨0x801000#64, 0x802000#64⟩, 0x400000#64))).getD (0, Kernel.bss)).2

theorem kernelMain_twoReady : kernelMain ⟨1#64, 2#64⟩ 3#64 0x400018#64
    (some (⟨0x801000#64, 0x802000#64⟩, 0x400000#64)) = some (0, twoReady) := by
  have hidle : (kernelMain ⟨1#64, 2#64⟩ 3#64 0x400018#64
    (some (⟨0x801000#64, 0x802000#64⟩, 0x400000#64))).map Prod.fst = some 0 := by decide +kernel
  obtain ⟨⟨idle, k⟩, hmain, rfl⟩ := Option.map_eq_some_iff.mp hidle
  rw [twoReady, hmain]
  rfl

/-- Idle alone, without a shell. -/
def idleAlone : Kernel :=
  ((kernelMain ⟨1#64, 2#64⟩ 3#64 0x400018#64 none).getD (0, Kernel.bss)).2

/-! ### What creation can do -/

/-- `alloc_proc` returns an UNUSED entry. -/
theorem state_of_allocProc {k : Kernel} {p : ProcIndex} (halloc : allocProc k = some p) :
    (k.procTable p).state = .unused := by
  simpa using List.find?_some halloc

/-- All that `proc_create` can do: fail and change nothing, or fill one UNUSED entry. -/
theorem procCreate_cases (entryPoints : EntryPoints) (kstack : Word) (name : List Byte)
    (entry : Word) (k : Kernel) :
    procCreate entryPoints kstack name entry k = (none, k) ∨
      ∃ p, (k.procTable p).state = .unused ∧ kstack ≠ 0#64 ∧
        procCreate entryPoints kstack name entry k =
          (some p,
            { k.modify p (createdProcess entryPoints kstack entry name k.nextPid k.currentPid) with
              nextPid := k.nextPid + 1 }) := by
  cases halloc : allocProc k with
  | none =>
    left
    simp only [procCreate, halloc]
  | some p =>
    by_cases hstack : kstack = 0#64
    · left
      simp only [procCreate, halloc, if_pos hstack]
    · right
      exact ⟨p, state_of_allocProc halloc, hstack, by simp only [procCreate, halloc, if_neg hstack]⟩

/-- All that `proc_create_elf` can do to the process table: fail and change nothing, or fill one
UNUSED entry. -/
theorem procCreateElf_cases (entryPoints : EntryPoints) (pages : ElfPages) (entry : Word)
    (k : Kernel) :
    procCreateElf entryPoints pages entry k = (none, k) ∨
      ∃ p, (k.procTable p).state = .unused ∧
        procCreateElf entryPoints pages entry k =
          (some p,
            { k.modify p (fun _ ↦ createdElfProcess entryPoints pages entry k.nextPid
                { Process.zero with state := .ready }) with
              nextPid := k.nextPid + 1 }) := by
  cases halloc : (List.finRange procMax).find? fun i ↦ (k.procTable i).state == .unused with
  | none =>
    left
    simp only [procCreateElf, allocProcSlot, halloc]
  | some p =>
    right
    refine ⟨p, by simpa using List.find?_some halloc, ?_⟩
    simp only [procCreateElf, allocProcSlot, halloc, allocPid, Kernel.modify, Function.update_self,
      Function.update_idem]

end Colix.Proc
