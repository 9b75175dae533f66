import Colix.Arch.InterruptSwitch

/-!
# What an interrupt changes

`interrupt_returns` follows one interrupt of a process through an undisturbed run: whatever other
interrupts and processes come in between, `interrupt_dispatch` has the registers that were
interrupted in its `interrupt_frame_t` until it stores a result there, and the `iretq` of the
interrupt continues with them, but for the result of a system call in `rax`.

`ipc_recv` writes to whatever address its caller passes. `receive_disturbs` is a system call with
the address of a word of its own frame: it returns with another `rbx`.
-/

set_option autoImplicit false
set_option relaxedAutoImplicit false

namespace Colix.Arch

open Foundation

/-- The steps while more than this many interrupts of the process have not returned. -/
def outstanding {Proc : Type*}
    (system : TransitionSystem (InterruptState Proc) (InterruptEvent Proc)) (p : Proc)
    (depth : ℕ) : TransitionSystem (InterruptState Proc) (InterruptEvent Proc) :=
  system.restrict fun s _ ↦ depth < (s.entries p).length

theorem path_of_outstanding {Proc : Type*}
    {system : TransitionSystem (InterruptState Proc) (InterruptEvent Proc)} {p : Proc} {depth : ℕ}
    {s u : InterruptState Proc} {between : List (InterruptEvent Proc)}
    (hpath : (outstanding system p depth).Path s between u) : system.Path s between u := by
  refine hpath.mono ?_
  rintro s event next ⟨-, hstep⟩
  exact hstep

section Return

variable {Proc : Type*} [DecidableEq Proc] {layout : StackLayout Proc}
  {s t u next : InterruptState Proc} {event : InterruptEvent Proc} {p : Proc}
  {before between : List (InterruptEvent Proc)} {number : ℕ}

/-! ### Interrupts in progress -/

/-- A step adds an interrupt to those of a process, takes one from them, gives the latest a result,
or leaves them. -/
theorem entries_step (hstep : (interruptSystem layout).step s event next) (p : Proc) :
    next.entries p = s.entries p ∨ (∃ entry, next.entries p = entry :: s.entries p) ∨
      (∃ entry, s.entries p = entry :: next.entries p) ∨
      ∃ entry rest result, s.entries p = entry :: rest ∧
        next.entries p = { entry with result := result } :: rest := by
  cases event with
  | work => exact Or.inl (by rw [hstep.1])
  | create q => exact Or.inl (by rw [hstep.2.2.2.1])
  | receive out message => exact Or.inl (by rw [hstep.2.2.2.2])
  | loadSegment dest bytes => exact Or.inl (by rw [hstep.2])
  | cell index value => exact Or.inl (by rw [hstep.2])
  | interrupt number =>
    obtain ⟨-, -, rfl⟩ := hstep
    by_cases hp : p = s.running
    · exact Or.inr (Or.inl ⟨s.entry layout number, by rw [hp, InterruptState.entries_interrupt]⟩)
    · exact Or.inl (Function.update_of_ne hp ..)
  | setResult result =>
    obtain ⟨entry, rest, -, hentries, -, -, rfl⟩ := hstep
    by_cases hp : p = s.running
    · refine Or.inr (Or.inr (Or.inr ⟨entry, rest, some result, by rw [hp, hentries], ?_⟩))
      rw [hp]
      exact InterruptState.setEntries_running ..
    · exact Or.inl (Function.update_of_ne hp ..)
  | dispatchReturn =>
    obtain ⟨-, -, -, -, -, -, rfl⟩ := hstep
    exact Or.inl rfl
  | exit =>
    obtain ⟨-, -, -, -, -, rfl⟩ := hstep
    exact Or.inl rfl
  | iretq =>
    obtain ⟨entry, rest, -, hentries, rfl⟩ := hstep
    by_cases hp : p = s.running
    · refine Or.inr (Or.inr (Or.inl ⟨entry, ?_⟩))
      rw [hp, hentries]
      exact congrArg (entry :: ·) (InterruptState.setEntries_running _ rest).symm
    · exact Or.inl (Function.update_of_ne hp ..)
  | callSwitch old new => exact Or.inl (by rw [hstep.2.2.2.2.2])
  | switch =>
    obtain ⟨-, -, -, -, -, rfl⟩ := hstep
    exact Or.inl rfl
  | enterUser => exact Or.inl (by rw [hstep.2.2.2.2])

/-- An interrupt that has not returned stays where it is, but for its result. -/
theorem entries_retained {entry : Entry Proc} {rest : List (Entry Proc)}
    (hpath : (outstanding ((interruptSystem layout).restrict layout.Undisturbed) p
      rest.length).Path t between u)
    (hentries : t.entries p = entry :: rest) (htop : rest.length < (u.entries p).length) :
    ∃ top result, u.entries p = top ++ { entry with result := result } :: rest := by
  refine hpath.preserves (motive := fun u ↦ rest.length < (u.entries p).length →
    ∃ top result, u.entries p = top ++ { entry with result := result } :: rest) ?_ ?_ htop
  · rintro s event next hbefore ⟨hdepth, -, hstep⟩ hmore
    obtain ⟨top, result, htop⟩ := hbefore hdepth
    rcases entries_step hstep p with hsame | ⟨added, hadded⟩ | ⟨taken, htaken⟩ |
      ⟨changed, below, value, hchanged, hvalue⟩
    · exact ⟨top, result, by rw [hsame, htop]⟩
    · exact ⟨added :: top, result, by rw [hadded, htop]; rfl⟩
    · rw [htop] at htaken
      cases top with
      | nil =>
        obtain ⟨-, hrest⟩ := List.cons.inj htaken
        rw [← hrest] at hmore
        exact absurd hmore (lt_irrefl _)
      | cons first top => exact ⟨top, result, (List.cons.inj htaken).2.symm⟩
    · rw [htop] at hchanged
      cases top with
      | nil =>
        obtain ⟨rfl, rfl⟩ := List.cons.inj hchanged
        exact ⟨[], value, hvalue⟩
      | cons first top =>
        obtain ⟨rfl, rfl⟩ := List.cons.inj hchanged
        exact ⟨{ first with result := value } :: top, result, hvalue⟩
  · exact fun _ ↦ ⟨[], entry.result, hentries⟩

theorem InterruptInvariant.of_outstanding {depth : ℕ} (hinv : InterruptInvariant layout t)
    (hpath : (outstanding ((interruptSystem layout).restrict layout.Undisturbed) p depth).Path
      t between u) : InterruptInvariant layout u :=
  hpath.preserves (fun _ _ _ hbefore hstep ↦ hbefore.step hstep.2) hinv

/-! ### One interrupt -/

/-- While nothing is disturbed, `interrupt_dispatch` finds the registers that were interrupted in
its frame until it stores a result there, calls `syscall_handler` with them, and the interrupt
returns with them, a system call with its result in `rax`. -/
theorem interrupt_returns
    (hrun : ((interruptSystem layout).restrict layout.Undisturbed).Run before s)
    (hinterrupt : (interruptSystem layout).step s (.interrupt number) t)
    (hbetween : (outstanding ((interruptSystem layout).restrict layout.Undisturbed) s.running
      (s.entries s.running).length).Path t between u)
    (hrunning : u.running = s.running)
    (hlatest : (u.entries s.running).length = (s.entries s.running).length + 1) :
    ∃ result, u.entries s.running =
        { s.entry layout number with result := result } :: s.entries s.running ∧
      (u.point = .code → result = none →
        loadFrame u.core.memory (t.core.registers.gpr .rdi).toNat =
          s.core.registers.frame number 0#64) ∧
      (number = 0x80 → (s.entry layout number).dispatch =
        .syscall (s.core.registers.gpr .rax) (s.core.registers.gpr .rdi)
          (s.core.registers.gpr .rsi) (s.core.registers.gpr .rdx) (s.core.registers.gpr .r10)
          (s.core.registers.gpr .r8)) ∧
      ∀ v, (interruptSystem layout).step u .iretq v → v.running = s.running ∧ v.point = s.point ∧
        (number ≠ 0x80 → v.core.registers = s.core.registers) ∧
        (number = 0x80 → ∃ value, result = some value ∧
          v.core.registers = s.core.registers.setGpr .rax value) := by
  have hbefore := InterruptInvariant.of_run hrun
  have hinv : InterruptInvariant layout u :=
    (hbefore.interrupt hinterrupt).of_outstanding hbetween
  have hdispatch := (hbefore.entryHolds hinterrupt).dispatch
  obtain ⟨-, -, rfl⟩ := hinterrupt
  have hentries := InterruptState.entries_interrupt layout s number
  obtain ⟨top, result, htop⟩ := entries_retained hbetween hentries (by omega)
  obtain rfl : top = [] := by
    rw [htop, List.length_append, List.length_cons] at hlatest
    exact List.length_eq_zero_iff.mp (by omega)
  rw [List.nil_append] at htop
  have htopRunning : u.entries u.running =
      { s.entry layout number with result := result } :: s.entries s.running := by
    rw [hrunning, htop]
  refine ⟨result, htop, fun hcode hnone ↦ ?_, fun hcall ↦ ?_, fun v hreturn ↦ ?_⟩
  · have hframes := hinv.frames
    rw [hcode, htopRunning] at hframes
    subst hnone
    exact hframes.1.loadFrame
  · rw [hdispatch, show (s.entry layout number).number = 0x80 from hcall]
    exact interruptDispatch_frame_systemCall s.core.registers 0#64
  · obtain ⟨hregisters, hcall, hother⟩ := hinv.iretq_returns htopRunning hreturn
    obtain ⟨entry, rest, -, hreturned, rfl⟩ := hreturn
    rw [htopRunning] at hreturned
    obtain ⟨rfl, rfl⟩ := List.cons.inj hreturned
    refine ⟨hrunning, rfl, fun hirq ↦ ?_, fun hsystem ↦ ?_⟩
    · rw [hregisters, Entry.returned, show result = none from hother hirq]
      rfl
    · obtain ⟨value, hvalue⟩ := Option.isSome_iff_exists.mp (hcall hsystem)
      refine ⟨value, hvalue, ?_⟩
      rw [hregisters, Entry.returned, show result = some value from hvalue]
      rfl

/-! ### The way out -/

/-- The way out comes to its `iretq`, whatever interrupt the words in the frame are of. -/
theorem exits_path {entry : Entry Proc} {depth : ℕ} (hexiting : s.point = .exiting 0)
    (hexit : ExitHolds s.core.registers entry 0)
    (hentry : EntryHolds layout s.core.memory s.running 1 entry)
    (hdepth : depth < (s.entries s.running).length) {count : ℕ} (hcount : count ≤ 16) :
    ∃ u, (outstanding ((interruptSystem layout).restrict layout.Undisturbed) s.running depth).Path
        s (List.replicate count .exit) u ∧
      u.point = .exiting count ∧ u.running = s.running ∧ u.entries = s.entries ∧
      u.core.memory = s.core.memory ∧ ExitHolds u.core.registers entry count := by
  induction count with
  | zero => exact ⟨s, .refl s, hexiting, rfl, rfl, rfl, hexit⟩
  | succ count ih =>
    obtain ⟨u, hpath, hpoint, hrunning, hentries, hmemory, hholds⟩ := ih (by omega)
    have hlength : count < isrCommonExit.length := by
      rw [show isrCommonExit.length = 17 from rfl]
      omega
    have hinstr := List.getElem?_eq_getElem hlength
    obtain ⟨instr, hsame⟩ : ∃ instr, instr = isrCommonExit[count] := ⟨_, rfl⟩
    rw [← hsame] at hinstr
    have hmore : depth < (u.entries s.running).length := by rwa [hentries]
    have hlast : (outstanding ((interruptSystem layout).restrict layout.Undisturbed) s.running
        depth).step u .exit { u with core := instr.exec u.core, point := .exiting (count + 1) } :=
      ⟨hmore, trivial, count, instr, hpoint, hcount, hinstr, rfl⟩
    have hstep := hpath.step hlast
    rw [← List.replicate_succ'] at hstep
    rcases isrCommonExit_cases hinstr with ⟨dst, hpop, hdst, rfl⟩ | ⟨rfl, rfl⟩ | ⟨rfl, -⟩
    · have htaken : EntryHolds layout u.core.memory s.running (1 + count) entry := by
        rw [hmemory]
        exact hentry.take count
      exact ⟨_, hstep, rfl, hrunning, hentries, hmemory, hholds.pop htaken hpop hdst⟩
    · have hfits := layout.limit_lt s.running
      have hlimit := hentry.le_limit
      have hstack : u.core.registers.stackPointer = entry.frame - 8 + 8 * 16 := hholds.stackPointer
      rw [frameSize] at hlimit
      exact ⟨_, hstep, rfl, hrunning, hentries, hmemory, hholds.addRsp (by omega)⟩
    · omega

/-- `interrupt_dispatch` returns, and the interrupt with it. -/
theorem dispatchReturn_path {latest entry : Entry Proc} {rest : List (Entry Proc)}
    (hcode : s.point = .code) (hentries : s.entries s.running = latest :: rest)
    (hkernel : ¬ s.core.registers.UserMode)
    (hstack : s.core.registers.stackPointer = latest.frame - 8)
    (hlatest : latest.dispatch.IsSyscall → latest.result.isSome)
    (hentry : EntryHolds layout s.core.memory s.running 0 entry)
    (hframe : entry.frame = latest.frame) (hresult : entry.number = 0x80 → entry.result.isSome) :
    ∃ u v, (outstanding ((interruptSystem layout).restrict layout.Undisturbed) s.running
        rest.length).Path s (.dispatchReturn :: List.replicate 16 .exit) u ∧
      u.running = s.running ∧ u.entries = s.entries ∧
      (interruptSystem layout).step u .iretq v ∧ v.core.registers = entry.returned := by
  have hfits := layout.limit_lt s.running
  have hlimit := hentry.le_limit
  have hdepth : rest.length < (s.entries s.running).length := by
    rw [hentries]
    exact Nat.lt_succ_self _
  rw [frameSize] at hlimit
  obtain ⟨t, ht⟩ : ∃ t, t = { s with core := s.core.ret, point := .exiting 0 } := ⟨_, rfl⟩
  have hstep : (outstanding ((interruptSystem layout).restrict layout.Undisturbed) s.running
      rest.length).step s .dispatchReturn t :=
    ⟨hdepth, trivial, latest, rest, hcode, hentries, hstack, hlatest, ht⟩
  have hexit : ExitHolds t.core.registers entry 0 := by
    rw [ht]
    refine ⟨hkernel, ?_, by decide, hresult, fun r hr ↦ by cases hr⟩
    rw [Core.stackPointer_ret (by omega), hstack, hframe]
    rfl
  obtain ⟨u, hpath, hpoint, hrunning, hsame, hmemory, hholds⟩ := exits_path (s := t)
    (by rw [ht]) hexit (by rw [ht]; exact hentry.take 1) (by rw [ht]; exact hdepth) (le_refl 16)
  rw [ht] at hrunning hsame hmemory
  have hall := (TransitionSystem.Path.refl s).step hstep
  rw [ht] at hall hpath
  have htaken : EntryHolds layout u.core.memory s.running 18 entry := by
    rw [hmemory]
    exact hentry.take 18
  exact ⟨u, { u with core := StubInstr.iretq.exec u.core, point := latest.point }.setEntries rest,
    hall.trans hpath, hrunning, hsame, ⟨latest, rest, hpoint, by rw [hsame, hrunning, hentries],
      rfl⟩, hholds.iretq htaken⟩

/-- `interrupt_dispatch` stores the result of a system call and returns. -/
theorem answer_path {entry held : Entry Proc} {rest : List (Entry Proc)} {result : Word}
    (hcode : s.point = .code) (hentries : s.entries s.running = entry :: rest)
    (hsyscall : entry.dispatch.IsSyscall) (hnone : entry.result = none)
    (hkernel : ¬ s.core.registers.UserMode)
    (hstack : s.core.registers.stackPointer = entry.frame - 8)
    (hheld : EntryHolds layout (store s.core.memory (entry.frame + 8 * 14) result) s.running 0
      held) (hframe : held.frame = entry.frame)
    (hresult : held.number = 0x80 → held.result.isSome) :
    ∃ u v, (outstanding ((interruptSystem layout).restrict layout.Undisturbed) s.running
        rest.length).Path s (.setResult result :: .dispatchReturn :: List.replicate 16 .exit) u ∧
      u.running = s.running ∧ u.entries s.running = { entry with result := some result } :: rest ∧
      (interruptSystem layout).step u .iretq v ∧ v.core.registers = held.returned := by
  obtain ⟨answered, hanswered⟩ : ∃ answered : InterruptState Proc, answered =
    { s with core := { s.core with
      memory := store s.core.memory (entry.frame + 8 * 14) result } }.setEntries
        ({ entry with result := some result } :: rest) := ⟨_, rfl⟩
  have hdepth : rest.length < (s.entries s.running).length := by
    rw [hentries]
    exact Nat.lt_succ_self _
  have hset : (outstanding ((interruptSystem layout).restrict layout.Undisturbed) s.running
      rest.length).step s (.setResult result) answered :=
    ⟨hdepth, trivial, entry, rest, hcode, hentries, hsyscall, hnone, hanswered⟩
  have hrunning : answered.running = s.running := by rw [hanswered]; rfl
  have hlatest : answered.entries answered.running =
      { entry with result := some result } :: rest := by
    rw [hanswered]
    exact InterruptState.setEntries_running ..
  obtain ⟨u, v, hpath, hsame, hkept, hreturn, hregisters⟩ := dispatchReturn_path
    (by rw [hanswered]; exact hcode) hlatest (by rw [hanswered]; exact hkernel)
    (by rw [hanswered]; exact hstack) (fun _ ↦ rfl) (by rw [hrunning, hanswered]; exact hheld)
    hframe hresult
  rw [hrunning] at hpath hsame hlatest
  exact ⟨u, v, ((TransitionSystem.Path.refl s).step hset).trans hpath, hsame,
    by rw [hkept, hlatest], hreturn, hregisters⟩

/-- What happens from an IRQ in C code to its `iretq`. -/
def irqEvents (number : ℕ) : List (InterruptEvent Proc) :=
  [.interrupt number] ++ (.dispatchReturn :: List.replicate 16 .exit) ++ [.iretq]

/-- An IRQ on top of an interrupt returns to the C code that it came in. -/
theorem irq_path {depth : ℕ} (hinv : InterruptInvariant layout s) (hcode : s.point = .code)
    (hnumber : 32 ≤ number ∧ number < 48)
    (hroom : layout.bottom s.running + frameSize + 8 ≤ s.core.entryTop s.tssRsp0)
    (hdepth : depth < (s.entries s.running).length) :
    ∃ v, (outstanding ((interruptSystem layout).restrict layout.Undisturbed) s.running depth).Path
        s (irqEvents number) v ∧
      v.point = .code ∧ v.running = s.running ∧ v.entries = s.entries ∧
      v.core.registers = s.core.registers := by
  obtain ⟨t, ht⟩ : ∃ t, t = s.interrupt layout number := ⟨_, rfl⟩
  have hinterrupt : (interruptSystem layout).step s (.interrupt number) t :=
    ⟨Or.inl hnumber, hroom, ht⟩
  obtain ⟨-, hstack, -, hcs⟩ := InterruptState.enter hinterrupt
  have hentry := hinv.entryHolds hinterrupt
  have hadded : t.entries = Function.update s.entries s.running
      (s.entry layout number :: s.entries s.running) := by rw [ht]; rfl
  have hsaved : (s.entry layout number).saved = s.core.registers := rfl
  have hpoint : (s.entry layout number).point = s.point := rfl
  have hnone : (s.entry layout number).result = none := rfl
  have hirq : (s.entry layout number).number = number := rfl
  have hrunning : t.running = s.running := by rw [ht]; rfl
  have hat : t.point = .code := by rw [ht]; rfl
  generalize s.entry layout number = entry at hstack hentry hadded hsaved hpoint hnone hirq
  clear ht
  have hkernel : ¬ t.core.registers.UserMode := by
    rw [Registers.UserMode, hcs]
    decide
  have hother : entry.number ≠ 0x80 := by omega
  have hlatest : t.entries s.running = entry :: s.entries s.running := by
    rw [hadded, Function.update_self]
  rw [← hrunning] at hlatest hentry
  obtain ⟨u, v, hpath, hsame, hentries, hreturn, hregisters⟩ := dispatchReturn_path hat hlatest
    hkernel hstack (fun hsyscall ↦ absurd (hentry.isSyscall_iff.mp hsyscall) hother) hentry rfl
    fun hcall ↦ absurd hcall hother
  rw [hrunning] at hpath hlatest hsame
  have hfirst := (TransitionSystem.Path.refl s).step (show (outstanding
    ((interruptSystem layout).restrict layout.Undisturbed) s.running depth).step s
      (.interrupt number) t from ⟨hdepth, trivial, hinterrupt⟩)
  have hway : (outstanding ((interruptSystem layout).restrict layout.Undisturbed) s.running
      depth).Path t (.dispatchReturn :: List.replicate 16 .exit) u := by
    refine hpath.mono ?_
    rintro state event next ⟨hmore, hstep⟩
    exact ⟨hdepth.trans hmore, hstep⟩
  have hmore : depth < (u.entries s.running).length := by
    rw [hentries, hlatest]
    exact hdepth.trans (Nat.lt_succ_self _)
  refine ⟨v, (hfirst.trans hway).step ⟨hmore, trivial, hreturn⟩, ?_⟩
  obtain ⟨returned, rest, -, htop, rfl⟩ := hreturn
  rw [hsame, hentries, hlatest] at htop
  obtain ⟨rfl, rfl⟩ := List.cons.inj htop
  refine ⟨hpoint.trans hcode, hsame, ?_, ?_⟩
  · change Function.update u.entries u.running (s.entries s.running) = s.entries
    rw [hentries, hsame, hadded, Function.update_idem, Function.update_eq_self]
  · rw [hregisters, Entry.returned, hnone]
    exact hsaved

/-! ### `switch_context` run through -/

omit [DecidableEq Proc] in
theorem InterruptInvariant.kernel_of_code (hinv : InterruptInvariant layout s)
    (hcode : s.point = .code) : ¬ s.core.registers.UserMode := by
  have hpoint := hinv.point
  rw [hcode] at hpoint
  exact hpoint.kernel

/-- C code comes to other registers. -/
theorem exists_step_work (layout : StackLayout Proc) {registers : Registers}
    (hcode : s.point = .code) (hkernel : ¬ registers.UserMode)
    (hbottom : layout.bottom s.running ≤ registers.stackPointer)
    (hceiling : registers.stackPointer ≤ layout.ceiling s.running (s.entries s.running)) :
    ∃ t, (interruptSystem layout).step s .work t ∧ t.core.registers = registers ∧
      t.point = .code ∧ t.running = s.running ∧ t.entries = s.entries := by
  refine ⟨{ s with core := { s.core with registers := registers } }, ⟨rfl, ?_⟩, rfl, hcode, rfl,
    rfl⟩
  rw [StackLayout.Works, hcode]
  exact ⟨hkernel, hbottom, hceiling, fun _ _ _ _ ↦ rfl, fun _ _ _ ↦ rfl⟩

/-- C code comes back to where its interrupt's frame begins. -/
theorem unwind_path {entry : Entry Proc} {rest : List (Entry Proc)} {depth : ℕ}
    (hinv : InterruptInvariant layout s) (hcode : s.point = .code)
    (hentries : s.entries s.running = entry :: rest) (hdepth : depth < (s.entries p).length) :
    ∃ u, (outstanding ((interruptSystem layout).restrict layout.Undisturbed) p depth).Path
        s [.work] u ∧
      u.point = .code ∧ u.running = s.running ∧ u.entries = s.entries ∧
      ¬ u.core.registers.UserMode ∧ u.core.registers.stackPointer = entry.frame - 8 := by
  have hframes := hinv.frames
  rw [hcode, hentries] at hframes
  have hbottom := hframes.1.bottom_le
  have hlimit := hframes.1.le_limit
  have hfits := layout.limit_lt s.running
  rw [frameSize] at hlimit
  obtain ⟨registers, hregisters⟩ : ∃ registers, registers =
    s.core.registers.setGpr .rsp (BitVec.ofNat 64 (entry.frame - 8)) := ⟨_, rfl⟩
  have hstack : registers.stackPointer = entry.frame - 8 := by
    rw [hregisters, Registers.stackPointer, Registers.setGpr_gpr_self, BitVec.toNat_ofNat,
      Nat.mod_eq_of_lt (by omega)]
  have hkernel : ¬ registers.UserMode := by
    rw [hregisters]
    exact hinv.kernel_of_code hcode
  obtain ⟨u, hwork, hsame, hpoint, hrunning, hkept⟩ := exists_step_work layout hcode hkernel
    (by omega) (by rw [hentries, hstack]; exact le_refl _)
  have hstep : (outstanding ((interruptSystem layout).restrict layout.Undisturbed) p depth).step
      s .work u := ⟨hdepth, trivial, hwork⟩
  refine ⟨u, (TransitionSystem.Path.refl s).step hstep, hpoint, hrunning, hkept, ?_, ?_⟩
  · rwa [hsame]
  · rwa [hsame]

/-- The instructions of `switch_context` up to the last. -/
theorem switches_path (layout : StackLayout Proc) {new : Proc} {depth : ℕ}
    (hpoint : s.point = .switching 0 new) (hdepth : depth < (s.entries p).length) {count : ℕ}
    (hcount : count ≤ 18) :
    ∃ u, (outstanding ((interruptSystem layout).restrict layout.Undisturbed) p depth).Path
        s (List.replicate count .switch) u ∧
      u.point = .switching count new ∧ u.entries = s.entries ∧
      u.running = if count ≤ 15 then s.running else new := by
  induction count with
  | zero => exact ⟨s, .refl s, hpoint, rfl, rfl⟩
  | succ count ih =>
    obtain ⟨u, hpath, hat, hentries, hrunning⟩ := ih (by omega)
    have hlength : count < switchContextCode.length := by
      rw [show switchContextCode.length = 19 from rfl]
      omega
    have hmore : depth < (u.entries p).length := by rwa [hentries]
    have hlast := hpath.step (show (outstanding ((interruptSystem layout).restrict
      layout.Undisturbed) p depth).step u .switch _ from
        ⟨hmore, trivial, count, new, _, hat, List.getElem?_eq_getElem hlength, rfl⟩)
    rw [← List.replicate_succ'] at hlast
    refine ⟨_, hlast, if_neg (by omega), hentries, ?_⟩
    change (if count = 15 then new else u.running) = _
    rw [hrunning]
    split_ifs <;> first | rfl | omega

/-- What happens from the preparation of a call of `switch_context` to its end. -/
def switchEvents (old new : Proc) : List (InterruptEvent Proc) :=
  [.work, .callSwitch old new] ++ List.replicate 18 .switch ++ [.switch]

/-- C code calls `switch_context`, and `new` goes on in its C code. -/
theorem switch_path (new : Proc) {depth : ℕ} (hinv : InterruptInvariant layout s)
    (hcode : s.point = .code)
    (hroom : layout.bottom s.running + 8 ≤ layout.ceiling s.running (s.entries s.running))
    (houtside : OutsideSwitch (s.entries s.running)) (hdepth : depth < (s.entries p).length) :
    ∃ u, (outstanding ((interruptSystem layout).restrict layout.Undisturbed) p depth).Path
        s (switchEvents s.running new) u ∧
      u.point = .code ∧ u.running = new ∧ u.entries = s.entries := by
  have hkernel := hinv.kernel_of_code hcode
  have hfits : layout.bottom s.running < 2 ^ 64 := by
    have hceiling := hinv.frames.ceiling_le
    have hlimit := layout.limit_lt s.running
    omega
  -- the arguments in their registers, and the stack pointer at the bottom of the stack
  obtain ⟨called, hcalled⟩ : ∃ called, called =
    ((s.core.registers.setGpr .rdi (layout.context s.running)).setGpr .rsi
      (layout.context new)).setGpr .rsp (BitVec.ofNat 64 (layout.bottom s.running)) := ⟨_, rfl⟩
  have hstack : called.stackPointer = layout.bottom s.running := by
    rw [hcalled, Registers.stackPointer, Registers.setGpr_gpr_self, BitVec.toNat_ofNat,
      Nat.mod_eq_of_lt hfits]
  have hmode : ¬ called.UserMode := by
    rw [hcalled]
    exact hkernel
  have hslot : called.stackPointer + 8 ≤ layout.ceiling s.running (s.entries s.running) := by
    rwa [hstack]
  have hceiling : called.stackPointer ≤ layout.ceiling s.running (s.entries s.running) :=
    (Nat.le_add_right _ 8).trans hslot
  obtain ⟨ready, hwork, hregisters, hcodeReady, hrunningReady, hentriesReady⟩ :=
    exists_step_work layout hcode hmode hstack.ge hceiling
  have hready : depth < (ready.entries p).length := by rwa [hentriesReady]
  have hcall : (interruptSystem layout).step ready (.callSwitch s.running new)
      { ready with point := .switching 0 new } := by
    refine ⟨hcodeReady, ?_, ?_, ?_, ?_, rfl⟩
    · rw [hregisters, hcalled]
      rfl
    · rw [hregisters, hcalled]
      rfl
    · rw [hregisters, hrunningReady]
      exact hstack.ge
    · rwa [hregisters, hrunningReady, hentriesReady]
  have hundisturbed : layout.Undisturbed ready (.callSwitch s.running new) := by
    rw [StackLayout.Undisturbed, hrunningReady, hentriesReady]
    exact ⟨rfl, houtside⟩
  have hfirst : (outstanding ((interruptSystem layout).restrict layout.Undisturbed) p depth).step
      s .work ready := ⟨hdepth, trivial, hwork⟩
  have hsecond : (outstanding ((interruptSystem layout).restrict layout.Undisturbed) p depth).step
      ready (.callSwitch s.running new) { ready with point := .switching 0 new } :=
    ⟨hready, hundisturbed, hcall⟩
  obtain ⟨u, hpath, hpoint, hentries, hrunning⟩ := switches_path layout
    (s := { ready with point := .switching 0 new }) rfl hready (le_refl 18)
  have hmore : depth < (u.entries p).length := by rwa [hentries]
  have hlast := ((((TransitionSystem.Path.refl s).step hfirst).step hsecond).trans hpath).step
    (show (outstanding ((interruptSystem layout).restrict layout.Undisturbed) p depth).step u
      .switch _ from ⟨hmore, trivial, 18, new, _, hpoint, rfl, rfl⟩)
  exact ⟨_, hlast, rfl, hrunning, hentries.trans hentriesReady⟩

/-- C code switches to a process without interrupts in progress, which switches back. -/
theorem switched_path {other : Proc} {depth : ℕ} (hinv : InterruptInvariant layout s)
    (hcode : s.point = .code)
    (hroom : layout.bottom s.running + 8 ≤ layout.ceiling s.running (s.entries s.running))
    (houtside : OutsideSwitch (s.entries s.running)) (hother : s.entries other = [])
    (hspace : layout.bottom other + 8 ≤ layout.limit other)
    (hdepth : depth < (s.entries p).length) :
    ∃ u, (outstanding ((interruptSystem layout).restrict layout.Undisturbed) p depth).Path
        s (switchEvents s.running other ++ switchEvents other s.running) u ∧
      u.point = .code ∧ u.running = s.running ∧ u.entries = s.entries := by
  obtain ⟨away, haway, hcodeAway, hrunning, hentries⟩ :=
    switch_path other hinv hcode hroom houtside hdepth
  obtain ⟨u, hback, hcodeBack, hrunningBack, hentriesBack⟩ := switch_path (p := p) s.running
    (hinv.of_outstanding haway) hcodeAway
    (by rw [hrunning, hentries, hother]; exact hspace)
    (by rw [hrunning, hentries, hother]; exact outsideSwitch_nil) (by rwa [hentries])
  rw [hrunning] at hback
  exact ⟨u, haway.trans hback, hcodeBack, hrunningBack, hentriesBack.trans hentries⟩

end Return

/-! ### Two processes -/

/-- Two user processes, with stacks of 4 KiB. -/
def twoStacks : StackLayout Bool where
  context p := if p then 0x2000#64 else 0x1000#64
  fits := by decide
  apart p q hne position hp hq := by
    rcases Bool.eq_false_or_eq_true p with rfl | rfl
    · obtain rfl : q = false := Bool.eq_false_of_not_eq_true hne.symm
      have hsecond : 0x2000 ≤ position := hp.1
      have hfirst : position < 0x1040 := hq.2
      omega
    · obtain rfl : q = true := Bool.eq_true_of_not_eq_false hne.symm
      have hfirst : position < 0x1040 := hp.2
      have hsecond : 0x2000 ≤ position := hq.1
      omega
  symbols := ⟨fun _ ↦ 0#64, 0#64, 0#64⟩
  bottom p := if p then 0xa000 else 0x8000
  limit p := if p then 0xb000 else 0x9000
  kernelRsp p := if p then 0xb000#64 else 0x9000#64
  IsUser _ := True
  limit_lt := by decide
  kernelRsp_le p _ := by cases p <;> decide
  stacks_apart := by decide
  contexts_apart := by decide

/-- User code with these arguments of a system call. -/
def userRegisters (rax rdi : Word) : Registers where
  gpr
    | .rax => rax
    | .rdi => rdi
    | _ => 0#64
  rip := 0x400000#64
  rflags := 0x202#64
  cs := 0x23#16
  ss := 0x1b#16

/-- A process in its C code before it enters user mode, and another that has never run. -/
def newProcess : InterruptState Bool where
  core :=
    { registers :=
        { gpr := fun _ ↦ 0x8800#64, rip := 0#64, rflags := 0#64, cs := 0x08#16, ss := 0#16 }
      ds := 0x10#16
      es := 0x10#16
      memory := store (fun _ ↦ 0#8) 0x2038 0xaff0#64 }
  running := false
  tssRsp0 := 0x9000#64
  point := .code
  entries _ := []

/-- The process in user mode, at a system call. -/
def atSystemCall (rax rdi : Word) : InterruptState Bool :=
  { newProcess with
    core := { newProcess.core with registers := userRegisters rax rdi }
    point := .user }

theorem userMode_atSystemCall (rax rdi : Word) :
    (atSystemCall rax rdi).core.registers.UserMode :=
  (by decide : (0x23#16 &&& 3#16) ≠ 0#16)

theorem start_newProcess : (interruptSystem twoStacks).start newProcess := by
  refine ⟨rfl, fun _ ↦ rfl, by decide, by decide, by decide, fun _ ↦ rfl, fun p hp ↦ ?_⟩
  obtain rfl : p = true := Bool.eq_true_of_not_eq_false hp
  have hrsp : (loadContext newProcess.core.memory (twoStacks.context true).toNat).rsp =
      0xaff0#64 := load_store (by decide) _
  rw [StackLayout.SlotInside, hrsp]
  exact (by decide : 0xa000 ≤ 0xaff0 ∧ 0xaff0 + 8 ≤ 0xb000)

theorem step_atSystemCall (rax rdi : Word) :
    (interruptSystem twoStacks).step newProcess .enterUser (atSystemCall rax rdi) :=
  ⟨rfl, rfl, trivial, userMode_atSystemCall rax rdi, rfl⟩

theorem entryTop_atSystemCall (rax rdi : Word) :
    (atSystemCall rax rdi).core.entryTop 0x9000#64 = 0x9000 := by
  rw [Core.entryTop, if_pos (userMode_atSystemCall rax rdi)]
  decide

theorem step_systemCall (rax rdi : Word) :
    (interruptSystem twoStacks).step (atSystemCall rax rdi) (.interrupt 0x80)
      ((atSystemCall rax rdi).interrupt twoStacks 0x80) := by
  refine ⟨Or.inr ⟨rfl, Or.inl rfl⟩, ?_, rfl⟩
  rw [show (atSystemCall rax rdi).tssRsp0 = 0x9000#64 from rfl, entryTop_atSystemCall]
  exact (by decide : 0x8000 + 176 + 8 ≤ 0x9000)

/-- `interrupt_dispatch` at its first instruction. -/
def dispatching (rax rdi : Word) : InterruptState Bool :=
  (atSystemCall rax rdi).interrupt twoStacks 0x80

/-- The record of the system call. -/
def callEntry (rax rdi : Word) : Entry Bool :=
  (atSystemCall rax rdi).entry twoStacks 0x80

theorem entries_dispatching (rax rdi : Word) :
    (dispatching rax rdi).entries false = [callEntry rax rdi] :=
  InterruptState.entries_interrupt twoStacks (atSystemCall rax rdi) 0x80

theorem frame_callEntry (rax rdi : Word) : (callEntry rax rdi).frame = 0x8f50 := by
  obtain ⟨-, -, hframe, -⟩ := InterruptState.enter (step_systemCall rax rdi)
  rw [callEntry, hframe, show (atSystemCall rax rdi).tssRsp0 = 0x9000#64 from rfl,
    entryTop_atSystemCall, frameSize]

theorem registers_dispatching (rax rdi : Word) :
    (dispatching rax rdi).core.registers.stackPointer = (callEntry rax rdi).frame - 8 ∧
      ¬ (dispatching rax rdi).core.registers.UserMode := by
  obtain ⟨-, hstack, -, hcs⟩ := InterruptState.enter (step_systemCall rax rdi)
  refine ⟨hstack, ?_⟩
  rw [Registers.UserMode, show (dispatching rax rdi).core.registers.cs = _ from hcs]
  decide

theorem entryHolds_callEntry (rax rdi : Word) :
    EntryHolds twoStacks (dispatching rax rdi).core.memory false 0 (callEntry rax rdi) := by
  have hinv : InterruptInvariant twoStacks (atSystemCall rax rdi) :=
    (InterruptInvariant.start start_newProcess).enterUser (step_atSystemCall rax rdi)
  exact hinv.entryHolds (step_systemCall rax rdi)

theorem dispatch_callEntry (rax rdi : Word) : (callEntry rax rdi).dispatch =
    .syscall rax rdi 0#64 0#64 0#64 0#64 := by
  rw [(entryHolds_callEntry rax rdi).dispatch]
  exact interruptDispatch_frame_systemCall (userRegisters rax rdi) 0#64

/-- What happens in the system call: the other process runs and switches back, the timer
interrupts, and the system call is given the result 7. -/
def switchedAndNested : List (InterruptEvent Bool) :=
  switchEvents false true ++ switchEvents true false ++ [.work] ++ irqEvents 32 ++
    .setResult 7#64 :: .dispatchReturn :: List.replicate 16 .exit

/-- A path of the system call up to its `iretq`. -/
theorem switchedAndNested_path : ∃ u v,
    (outstanding ((interruptSystem twoStacks).restrict twoStacks.Undisturbed) false 0).Path
        (dispatching 0#64 0#64) switchedAndNested u ∧
      u.running = false ∧
      u.entries false = [{ callEntry 0#64 0#64 with result := some 7#64 }] ∧
      (interruptSystem twoStacks).step u .iretq v := by
  have hinv : InterruptInvariant twoStacks (dispatching 0#64 0#64) :=
    ((InterruptInvariant.start start_newProcess).enterUser
      (step_atSystemCall 0#64 0#64)).interrupt (step_systemCall 0#64 0#64)
  have hentries := entries_dispatching 0#64 0#64
  have hother : (dispatching 0#64 0#64).entries true = [] := rfl
  have hrunning : (dispatching 0#64 0#64).running = false := rfl
  have hcode : (dispatching 0#64 0#64).point = .code := rfl
  have hframe := frame_callEntry 0#64 0#64
  have hsyscall := (entryHolds_callEntry 0#64 0#64).isSyscall_iff.mpr rfl
  have hnumber : (callEntry 0#64 0#64).number = 0x80 := rfl
  have hnone : (callEntry 0#64 0#64).result = none := rfl
  have hswitching : ¬ (callEntry 0#64 0#64).point.Switching := id
  generalize dispatching 0#64 0#64 = t at hinv hentries hother hrunning hcode ⊢
  generalize callEntry 0#64 0#64 = entry at hentries hframe hsyscall hnumber hnone hswitching ⊢
  have hceiling : twoStacks.ceiling false [entry] = 0x8f48 := by
    rw [StackLayout.ceiling, hframe]
  have hdepth : 0 < (t.entries false).length := by
    rw [hentries]
    exact Nat.one_pos
  -- the other process and back
  obtain ⟨back, hback, hcodeBack, hrunningBack, hentriesBack⟩ := switched_path (p := false) hinv
    hcode (by rw [hrunning, hentries, hceiling]; decide)
    (by
      rw [hrunning, hentries]
      intro latest hlatest
      rwa [List.mem_singleton.mp hlatest])
    hother (by decide) hdepth
  rw [hrunning] at hback hrunningBack
  obtain ⟨ready, hwork, hcodeReady, hrunningReady, hentriesReady, hkernel, hstack⟩ := unwind_path
    (p := false) (hinv.of_outstanding hback) hcodeBack
    (by rw [hrunningBack, hentriesBack]; exact hentries) (by rwa [hentriesBack])
  rw [hrunningBack] at hrunningReady
  rw [hentriesBack] at hentriesReady
  rw [hframe] at hstack
  have hready := hback.trans hwork
  have hinside : 0 < (ready.entries ready.running).length := by rwa [hrunningReady, hentriesReady]
  -- the timer interrupts the system call
  obtain ⟨ticked, hirq, hcodeTicked, hrunningTicked, hentriesTicked, hkept⟩ := irq_path
    (hinv.of_outstanding hready) hcodeReady (show 32 ≤ 32 ∧ 32 < 48 by decide)
    (by
      rw [hrunningReady, Core.entryTop, if_neg hkernel]
      change 0x8000 + frameSize + 8 ≤ ready.core.registers.stackPointer / 16 * 16
      rw [hstack]
      decide)
    hinside
  rw [hrunningReady] at hirq hrunningTicked
  rw [hentriesReady] at hentriesTicked
  have hall := hready.trans hirq
  have hlatest : ticked.entries ticked.running = [entry] := by
    rw [hrunningTicked, hentriesTicked, hentries]
  have hentry : EntryHolds twoStacks ticked.core.memory ticked.running 0 entry := by
    have hframes := (hinv.of_outstanding hall).frames
    rw [hlatest, hcodeTicked] at hframes
    exact hframes.1
  obtain ⟨u, v, hanswer, hrunningLast, hentriesLast, hreturn, -⟩ := answer_path hcodeTicked hlatest
    hsyscall hnone (by rw [hkept]; exact hkernel) (by rw [hkept, hstack, hframe])
    (hentry.store_result hnumber hnone 7#64) rfl fun _ ↦ rfl
  rw [hrunningTicked] at hanswer hrunningLast hentriesLast
  exact ⟨u, v, hall.trans hanswer, hrunningLast, hentriesLast, hreturn⟩

/-- The system call returns with its result. -/
theorem interrupt_returns_seven : ∃ (s t u v : InterruptState Bool)
    (before : List (InterruptEvent Bool)),
    ((interruptSystem twoStacks).restrict twoStacks.Undisturbed).Run before s ∧ s.point = .user ∧
      (interruptSystem twoStacks).step s (.interrupt 0x80) t ∧
      ((interruptSystem twoStacks).restrict twoStacks.Undisturbed).Path t switchedAndNested u ∧
      (interruptSystem twoStacks).step u .iretq v ∧
      v.core.registers = s.core.registers.setGpr .rax 7#64 := by
  have henter : ((interruptSystem twoStacks).restrict twoStacks.Undisturbed).step newProcess
      .enterUser (atSystemCall 0#64 0#64) := ⟨trivial, step_atSystemCall 0#64 0#64⟩
  have hstart : ((interruptSystem twoStacks).restrict twoStacks.Undisturbed).Run [] newProcess :=
    .start start_newProcess
  have hrun := hstart.step henter
  obtain ⟨u, v, hbetween, hrunning, hlatest, hreturn⟩ := switchedAndNested_path
  obtain ⟨result, hresult, -, -, hreturns⟩ := interrupt_returns hrun (step_systemCall 0#64 0#64)
    hbetween hrunning (by
      change (u.entries false).length = 1
      rw [hlatest]
      rfl)
  obtain ⟨-, -, -, hcall⟩ := hreturns v hreturn
  obtain ⟨value, hvalue, hregisters⟩ := hcall rfl
  have hseven : value = 7#64 := by
    have hsame := hlatest.symm.trans hresult
    exact (Option.some.inj ((congrArg Entry.result (List.cons.inj hsame).1).trans hvalue)).symm
  refine ⟨_, _, u, v, _, hrun, rfl, step_systemCall 0#64 0#64, path_of_outstanding hbetween,
    hreturn, ?_⟩
  rw [hregisters, hseven]

/-! ### A message into the frame -/

/-- A message of pid 1 without data. -/
def emptyMessage : IpcMessage := ⟨1, 0#32, 0#32, fun _ ↦ 0#8, none⟩

section Receive

variable {memory : Memory} {out position : ℕ}

/-- The first byte of the copy is the sender's. -/
theorem storeReceived_emptyMessage :
    storeReceived memory out emptyMessage out = 1#8 := by
  rw [storeReceived, store_apply_of_disjoint _ (by omega), placeBytes, if_neg ?_,
    store_apply_of_disjoint _ (by omega), store_apply_of_disjoint _ (by omega), store, storeNat,
    if_pos ⟨le_refl _, Nat.lt_add_of_pos_right (by decide)⟩, Nat.sub_self]
  · rfl
  · rintro ⟨hge, -⟩
    omega

/-- The copy of an empty message leaves `from_slot` to the last byte of `data` as they were. -/
theorem storeReceived_emptyMessage_of_outside
    (houtside : position < out ∨ out + 12 ≤ position ∧ position < out + 272) :
    storeReceived memory out emptyMessage position = memory position := by
  refine storeReceived_apply_of_outside ?_
  rw [InReceived, show emptyMessage.len.toNat = 0 from rfl]
  omega

/-- The words of a frame after an empty message is received at its `rbx` and a result is stored. -/
theorem words_received {r : Registers} {frame number : ℕ} {word errorCode : Word}
    (result : Word) (hframe : 8 ≤ frame)
    (hwords : WordsAt memory (frame - 8) (word :: r.frameWords number errorCode)) :
    ∃ rbx, rbx ≠ 0#64 ∧
      WordsAt (store (storeReceived memory (frame + 8 * 13) emptyMessage) (frame + 8 * 14) result)
        (frame - 8) (word :: ((r.setGpr .rbx rbx).setGpr .rax result).frameWords number
          errorCode) := by
  have hlength : (word :: r.frameWords number errorCode).length = 23 := rfl
  obtain ⟨received, hreceived⟩ : ∃ received, received =
    storeReceived memory (frame + 8 * 13) emptyMessage := ⟨_, rfl⟩
  have hkept : ∀ position, position < frame + 8 * 13 ∨
      frame + 8 * 13 + 12 ≤ position ∧ position < frame + 8 * 13 + 272 →
        received position = memory position := by
    intro position houtside
    rw [hreceived]
    exact storeReceived_emptyMessage_of_outside houtside
  -- first the word of `rbx` alone
  obtain ⟨middle, hmiddle⟩ : ∃ middle : Memory, middle =
    fun position ↦ if position < frame + 8 * 14 then received position else memory position :=
      ⟨_, rfl⟩
  have hrbx : WordsAt middle (frame - 8) ((word :: r.frameWords number errorCode).set 14
      (load 64 middle (frame - 8 + 8 * 14))) := by
    refine hwords.set 14 fun position hge hlt houtside ↦ ?_
    rw [hmiddle]
    dsimp only
    split_ifs
    · exact hkept position (by omega)
    · rfl
  -- then the result, which is the next word
  rw [← hreceived]
  obtain ⟨stored, hstored⟩ : ∃ stored, stored =
    store received (frame + 8 * 14) result := ⟨_, rfl⟩
  have hrax : WordsAt stored (frame - 8) (((word :: r.frameWords number errorCode).set 14
      (load 64 middle (frame - 8 + 8 * 14))).set 15 (load 64 stored (frame - 8 + 8 * 15))) := by
    refine hrbx.set 15 fun position hge hlt houtside ↦ ?_
    rw [List.length_set, hlength] at hlt
    have hother : stored position = received position := by
      rw [hstored]
      refine store_apply_of_disjoint _ ?_
      change position < _ ∨ frame + 8 * 14 + 8 ≤ position
      omega
    rw [hother, hmiddle]
    dsimp only
    split_ifs
    · rfl
    · exact hkept position (by omega)
  rw [show frame - 8 + 8 * 15 = frame + 8 * 14 by omega, hstored, load_store (by decide),
    show frame - 8 + 8 * 14 = frame + 8 * 13 by omega] at hrax
  refine ⟨load 64 middle (frame + 8 * 13), fun hzero ↦ ?_, hrax⟩
  have hfirst := (load_eq_zero_iff (by decide)).mp hzero 0 (by decide)
  rw [hmiddle, Nat.add_zero] at hfirst
  dsimp only at hfirst
  rw [if_pos (by omega), hreceived, storeReceived_emptyMessage] at hfirst
  exact absurd hfirst (by decide)

end Receive

/-- `interrupt_dispatch` does not read `rbx`. -/
theorem interruptDispatch_setGpr_rbx (r : Registers) (value : Word) (number : ℕ)
    (errorCode : Word) : interruptDispatch ((r.setGpr .rbx value).frame number errorCode) =
      interruptDispatch (r.frame number errorCode) := rfl

/-- The frame of a system call that received an empty message at its own `rbx` is that of other
registers. -/
theorem EntryHolds.received {Proc : Type*} {layout : StackLayout Proc} {memory : Memory} {p : Proc}
    {entry : Entry Proc} (hentry : EntryHolds layout memory p 0 entry)
    (hsyscall : entry.dispatch.IsSyscall) (hnone : entry.result = none) (result : Word) :
    ∃ rbx, rbx ≠ 0#64 ∧
      EntryHolds layout (store (storeReceived memory (entry.frame + 8 * 13) emptyMessage)
        (entry.frame + 8 * 14) result) p 0
          { entry with saved := entry.saved.setGpr .rbx rbx, result := some result } := by
  have hbottom := hentry.bottom_le
  obtain ⟨rbx, hrbx, hwords⟩ := words_received result (by omega) hentry.words
  rw [show entry.returned = entry.saved by rw [Entry.returned, hnone]] at hwords
  refine ⟨rbx, hrbx, hentry.bottom_le, hentry.le_limit, hentry.le_saved, hentry.number_lt, ?_,
    hentry.systemCall, fun hother ↦ absurd (hentry.isSyscall_iff.mp hsyscall) hother, hwords⟩
  rw [hentry.dispatch]
  exact (interruptDispatch_setGpr_rbx ..).symm

/-- A system call that receives an empty message at the `rbx` of its own frame returns with the
sender's pid there. -/
theorem receive_path {Proc : Type*} [DecidableEq Proc] {layout : StackLayout Proc}
    {s : InterruptState Proc} {entry : Entry Proc} {rest : List (Entry Proc)}
    (hcode : s.point = .code) (hentries : s.entries s.running = entry :: rest)
    (hnone : entry.result = none) {out a2 a3 a4 a5 : Word}
    (hcall : entry.dispatch = .syscall sysIpcRecv out a2 a3 a4 a5)
    (hout : out.toNat = entry.frame + 8 * 13)
    (hkernel : ¬ s.core.registers.UserMode)
    (hstack : s.core.registers.stackPointer = entry.frame - 8)
    (hentry : EntryHolds layout s.core.memory s.running 0 entry) :
    ∃ rbx between u v, rbx ≠ 0#64 ∧
      (outstanding (interruptSystem layout) s.running rest.length).Path s between u ∧
      (u.entries s.running).length = rest.length + 1 ∧
      (interruptSystem layout).step u .iretq v ∧
      v.core.registers = (entry.saved.setGpr .rbx rbx).setGpr .rax 0#64 := by
  have hsyscall : entry.dispatch.IsSyscall := by
    rw [hcall]
    trivial
  have hmore : rest.length < (s.entries s.running).length := by
    rw [hentries]
    exact Nat.lt_succ_self _
  obtain ⟨rbx, hrbx, hframe⟩ := hentry.received hsyscall hnone 0#64
  have hreceived : (interruptSystem layout).step s (.receive out emptyMessage)
      { s with core := { s.core with
        memory := storeReceived s.core.memory (entry.frame + 8 * 13) emptyMessage } } := by
    refine ⟨hcode, ⟨entry, rest, a2, a3, a4, a5, hentries, hcall⟩, fun hzero ↦ ?_, by decide,
      by rw [hout]⟩
    rw [hzero, BitVec.toNat_zero] at hout
    omega
  obtain ⟨received, hsame⟩ : ∃ received : InterruptState Proc, received =
    { s with core := { s.core with
      memory := storeReceived s.core.memory (entry.frame + 8 * 13) emptyMessage } } := ⟨_, rfl⟩
  rw [← hsame] at hreceived
  have hrunning : received.running = s.running := by rw [hsame]
  have hlatest : received.entries received.running = entry :: rest := by
    rw [hsame]
    exact hentries
  have hheld : EntryHolds layout (store received.core.memory (entry.frame + 8 * 14) 0#64)
      received.running 0
        { entry with saved := entry.saved.setGpr .rbx rbx, result := some 0#64 } := by
    rw [hrunning, hsame]
    exact hframe
  obtain ⟨u, v, hpath, -, hsameEntries, hreturn, hregisters⟩ := answer_path
    (by rw [hsame]; exact hcode) hlatest hsyscall hnone (by rw [hsame]; exact hkernel)
    (by rw [hsame]; exact hstack) hheld rfl fun _ ↦ rfl
  rw [hrunning] at hpath hsameEntries
  have hfirst : (outstanding (interruptSystem layout) s.running rest.length).step s
      (.receive out emptyMessage) received := ⟨hmore, hreceived⟩
  have hlast : (outstanding (interruptSystem layout) s.running rest.length).Path received
      (.setResult 0#64 :: .dispatchReturn :: List.replicate 16 .exit) u := by
    refine hpath.mono ?_
    rintro state event next ⟨hdepth, -, hstep⟩
    exact ⟨hdepth, hstep⟩
  refine ⟨rbx, _, u, v, hrbx, ((TransitionSystem.Path.refl s).step hfirst).trans hlast, ?_,
    hreturn, hregisters⟩
  rw [hsameEntries]
  rfl

/-- `SYS_IPC_RECV` of user code with the address of the `rbx` in its own frame. -/
theorem receive_disturbs : ∃ (s t u v : InterruptState Bool)
    (before between : List (InterruptEvent Bool)),
    (interruptSystem twoStacks).Run before s ∧ s.point = .user ∧
      (interruptSystem twoStacks).step s (.interrupt 0x80) t ∧
      (outstanding (interruptSystem twoStacks) s.running (s.entries s.running).length).Path
        t between u ∧
      (u.entries s.running).length = (s.entries s.running).length + 1 ∧
      (interruptSystem twoStacks).step u .iretq v ∧
      ¬ ∃ value, v.core.registers = s.core.registers.setGpr .rax value := by
  obtain ⟨hstack, hkernel⟩ := registers_dispatching sysIpcRecv 0x8fb8#64
  obtain ⟨rbx, between, u, v, hrbx, hpath, hlatest, hreturn, hregisters⟩ := receive_path
    (s := dispatching sysIpcRecv 0x8fb8#64) rfl (entries_dispatching _ _) rfl
    (dispatch_callEntry _ _) (by rw [frame_callEntry]; rfl) hkernel hstack
    (entryHolds_callEntry sysIpcRecv 0x8fb8#64)
  have hrun := (TransitionSystem.Run.start start_newProcess).step
    (step_atSystemCall sysIpcRecv 0x8fb8#64)
  refine ⟨_, _, u, v, _, between, hrun, rfl, step_systemCall _ _, hpath, hlatest, hreturn, ?_⟩
  rintro ⟨value, hvalue⟩
  have hsame := congrArg (fun r ↦ r.gpr .rbx) (hregisters.symm.trans hvalue)
  exact hrbx hsame

end Colix.Arch
