import Colix.Arch.Context
import Colix.Foundation.Execution

/-!
# Context switches along runs

Any number of processes, each with a saved context of its own, take turns on one machine. Between
switches the running process changes registers and memory as it likes, short of the saved contexts
of the others. `SwitchInvariant` says that the context in memory of every suspended process is the
one it left at its last call, and `contextSwitch_identity` that switching it in again continues
there.
-/

set_option autoImplicit false
set_option relaxedAutoImplicit false

namespace Colix.Arch

open Foundation

/-- Where the processes' saved contexts are. -/
structure ContextLayout (Proc : Type*) where
  context : Proc → Word
  fits : ∀ p, (context p).toNat + contextSize ≤ 2 ^ 64
  apart : ∀ p q, p ≠ q → ∀ position,
    InContext (context p) position → ¬ InContext (context q) position

/-- The machine and the process it runs. -/
structure SwitchState (Proc : Type*) where
  machine : Machine
  running : Proc

/-- What happens: the running process works, or calls `switch_context` with this to be resumed
with. -/
inductive SwitchEvent (Proc : Type*)
  | work
  | switch (old new : Proc) (saved : CpuContext)

variable {Proc : Type*} {layout : ContextLayout Proc}

/-- The stack slot lies in no saved context. -/
def ClearSlot (layout : ContextLayout Proc) (rsp : Word) : Prop :=
  ∀ p position, InSlot rsp position → ¬ InContext (layout.context p) position

/-- The contexts after the caller's was stored. -/
theorem loadContext_storeContext [DecidableEq Proc] (layout : ContextLayout Proc)
    (memory : Memory) (old p : Proc) (context : CpuContext) :
    loadContext (storeWords memory (layout.context old).toNat (CpuContext.words context))
        (layout.context p).toNat =
      if p = old then context else loadContext memory (layout.context p).toNat := by
  by_cases hp : p = old
  · rw [if_pos hp, hp, loadContext_storeWords]
  · rw [if_neg hp]
    refine loadContext_congr fun position hposition ↦ storeWords_apply_of_disjoint ?_
    have houtside := layout.apart p old hp position hposition
    rw [InContext, contextSize] at houtside
    simp only [CpuContext.words, List.length_cons, List.length_nil]
    omega

/-- A store to a slot that lies in no context keeps them all. -/
theorem loadContext_store_of_clear {memory : Memory} {rsp : Word} (hclear : ClearSlot layout rsp)
    (word : Word) (p : Proc) : loadContext (store memory rsp.toNat word) (layout.context p).toNat =
      loadContext memory (layout.context p).toNat := by
  refine loadContext_congr fun position hposition ↦ store_apply_of_disjoint _ ?_
  have houtside : ¬ InSlot rsp position := fun hin ↦ hclear p position hin hposition
  rw [InSlot] at houtside
  omega

/-- Runs of processes that switch. No stack slot that a switch reads or writes lies in a saved
context, and no process writes the saved context of another. -/
def switchSystem (layout : ContextLayout Proc) :
    TransitionSystem (SwitchState Proc) (SwitchEvent Proc) where
  start s := ∀ p, p ≠ s.running →
    ClearSlot layout (loadContext s.machine.memory (layout.context p).toNat).rsp
  step s event next :=
    match event with
    | .work =>
      next.running = s.running ∧ ∀ p, p ≠ s.running → ∀ position,
        InContext (layout.context p) position →
          next.machine.memory position = s.machine.memory position
    | .switch old new saved =>
      old = s.running ∧ saved = callerContext s.machine ∧
        s.machine.regs .rdi = layout.context old ∧ s.machine.regs .rsi = layout.context new ∧
        ClearSlot layout (s.machine.regs .rsp) ∧
        next = ⟨runCode switchContextCode s.machine, new⟩

/-- What a process was last switched out with, after a history of events. -/
def lastSaved [DecidableEq Proc] (p : Proc) (events : List (SwitchEvent Proc)) :
    Option CpuContext :=
  events.foldl
    (fun last event ↦
      match event with
      | .switch old _ saved => if old = p then some saved else last
      | .work => last)
    none

section Invariant

variable [DecidableEq Proc] {s next : SwitchState Proc} {events : List (SwitchEvent Proc)}
  {p old new : Proc} {saved : CpuContext}

@[simp] theorem lastSaved_work : lastSaved p (events ++ [.work]) = lastSaved p events := by
  simp [lastSaved]

@[simp] theorem lastSaved_switch : lastSaved p (events ++ [.switch old new saved]) =
    if old = p then some saved else lastSaved p events := by
  simp [lastSaved]

/-- Every suspended process has in memory what it was last switched out with, and its stack slot
lies in no saved context. -/
structure SwitchInvariant (layout : ContextLayout Proc) (events : List (SwitchEvent Proc))
    (s : SwitchState Proc) : Prop where
  saved : ∀ p context, p ≠ s.running → lastSaved p events = some context →
    loadContext s.machine.memory (layout.context p).toNat = context
  clear : ∀ p, p ≠ s.running →
    ClearSlot layout (loadContext s.machine.memory (layout.context p).toNat).rsp

/-- Work keeps the invariant. -/
theorem SwitchInvariant.work (hinv : SwitchInvariant layout events s)
    (hstep : (switchSystem layout).step s .work next) :
    SwitchInvariant layout (events ++ [.work]) next := by
  obtain ⟨hrunning, hkept⟩ := hstep
  have hsame : ∀ p, p ≠ s.running → loadContext next.machine.memory (layout.context p).toNat =
      loadContext s.machine.memory (layout.context p).toNat :=
    fun p hp ↦ loadContext_congr (hkept p hp)
  refine ⟨fun p context hp hlast ↦ ?_, fun p hp ↦ ?_⟩
  · rw [hrunning] at hp
    rw [lastSaved_work] at hlast
    rw [hsame p hp]
    exact hinv.saved p context hp hlast
  · rw [hrunning] at hp
    rw [hsame p hp]
    exact hinv.clear p hp

/-- What a switch does, in terms of the saved contexts: the caller's becomes what it is to be
resumed with, the others stay, and the machine continues as the incoming one says. -/
theorem SwitchInvariant.switch_contexts (hinv : SwitchInvariant layout events s)
    (hstep : (switchSystem layout).step s (.switch old new saved) next) :
    (∀ p, loadContext next.machine.memory (layout.context p).toNat =
        if p = old then saved
        else loadContext s.machine.memory (layout.context p).toNat) ∧
      Resumed next.machine (if new = old then saved
        else loadContext s.machine.memory (layout.context new).toNat) := by
  obtain ⟨rfl, rfl, hrdi, hrsi, hclear, rfl⟩ := hstep
  obtain ⟨after, hafter, hresumed, hmemory⟩ := runCode_switchContextCode (s := s.machine)
    (by rw [hrdi]; exact layout.fits _) (by rw [hrsi]; exact layout.fits _)
    (by rw [hrdi]; exact hclear s.running)
  rw [hrdi] at hafter
  rw [hrsi] at hresumed hmemory
  -- the contexts after the first half
  have hcontexts : ∀ p, loadContext after (layout.context p).toNat =
      if p = s.running then callerContext s.machine
      else loadContext s.machine.memory (layout.context p).toNat := by
    intro p
    rw [hafter]
    exact loadContext_storeContext layout s.machine.memory s.running p _
  -- the store of the second half goes to a slot that lies in no context
  have hslot : ClearSlot layout (loadContext after (layout.context new).toNat).rsp := by
    rw [hcontexts]
    by_cases hnew : new = s.running
    · rw [if_pos hnew]
      exact hclear
    · rw [if_neg hnew]
      exact hinv.clear new hnew
  refine ⟨fun p ↦ ?_, ?_⟩
  · rw [← hcontexts p, hmemory]
    exact loadContext_store_of_clear hslot _ p
  · rw [← hcontexts new]
    exact hresumed

/-- A switch keeps the invariant. -/
theorem SwitchInvariant.switch (hinv : SwitchInvariant layout events s)
    (hstep : (switchSystem layout).step s (.switch old new saved) next) :
    SwitchInvariant layout (events ++ [.switch old new saved]) next := by
  obtain ⟨hcontexts, -⟩ := hinv.switch_contexts hstep
  obtain ⟨rfl, rfl, -, -, hclear, rfl⟩ := hstep
  refine ⟨fun p context hp hlast ↦ ?_, fun p hp ↦ ?_⟩
  · rw [lastSaved_switch] at hlast
    rw [hcontexts]
    by_cases hold : p = s.running
    · rw [if_pos hold.symm, Option.some.injEq] at hlast
      rw [if_pos hold, hlast]
    · rw [if_neg (Ne.symm hold)] at hlast
      rw [if_neg hold]
      exact hinv.saved p context hold hlast
  · rw [hcontexts]
    by_cases hold : p = s.running
    · rw [if_pos hold]
      exact hclear
    · rw [if_neg hold]
      exact hinv.clear p hold

/-- The run lemma. -/
theorem SwitchInvariant.of_run (hrun : (switchSystem layout).Run events s) :
    SwitchInvariant layout events s := by
  refine hrun.history_invariant (motive := SwitchInvariant layout) ?_ ?_
  · intro s hstart
    refine ⟨fun p context _ hlast ↦ ?_, hstart⟩
    cases hlast
  · intro events s event next hinv hstep
    cases event with
    | work => exact hinv.work hstep
    | switch old new saved => exact hinv.switch hstep

/-- A process that was switched out continues, when it is switched in again, with the registers and
at the address of its last call of `switch_context`, its stack pointer just past the return
address. -/
theorem contextSwitch_identity {context : CpuContext}
    (hrun : (switchSystem layout).Run events s)
    (hstep : (switchSystem layout).step s (.switch old new saved) next)
    (hlast : lastSaved new (events ++ [.switch old new saved]) = some context) :
    Resumed next.machine context := by
  have hinv := SwitchInvariant.of_run hrun
  obtain ⟨-, hresumed⟩ := hinv.switch_contexts hstep
  rw [lastSaved_switch] at hlast
  by_cases hsame : new = old
  · rw [if_pos hsame.symm, Option.some.injEq] at hlast
    rwa [if_pos hsame, hlast] at hresumed
  · rw [if_neg (Ne.symm hsame)] at hlast
    have hrunning : new ≠ s.running := by
      obtain ⟨rfl, -⟩ := hstep
      exact hsame
    rwa [if_neg hsame, hinv.saved new context hrunning hlast] at hresumed

end Invariant

/-! ### Two processes -/

theorem twoContexts_fits (p : Bool) :
    (if p then 0x1000#64 else 0x2000#64 : Word).toNat + contextSize ≤ 2 ^ 64 := by
  cases p <;> decide

theorem twoContexts_apart (p q : Bool) (hne : p ≠ q) (position : ℕ) :
    InContext (if p then 0x1000#64 else 0x2000#64) position →
      ¬ InContext (if q then 0x1000#64 else 0x2000#64) position := by
  cases p <;> cases q <;> simp_all [InContext, contextSize] <;> omega

/-- Two contexts of 64 bytes at 0x1000 and 0x2000. -/
def twoContexts : ContextLayout Bool where
  context p := if p then 0x1000#64 else 0x2000#64
  fits := twoContexts_fits
  apart := twoContexts_apart

/-- Registers at a call of `switch_context` with these arguments and this stack pointer. -/
def callRegs (rdi rsi rsp : Word) : Reg → Word
  | .rdi => rdi
  | .rsi => rsi
  | .rsp => rsp
  | _ => 0#64

/-- One process switches to the other, which switches back. -/
theorem contextSwitch_identity_back : ∃ first second : SwitchState Bool,
    (switchSystem twoContexts).Run
      [.switch true false (callerContext first.machine), .work] second ∧
    Resumed (runCode switchContextCode second.machine) (callerContext first.machine) := by
  have hclear : ∀ rsp ∈ [0x0#64, 0x8000#64, 0x9000#64], ClearSlot twoContexts rsp := by
    intro rsp hrsp p position hslot hcontext
    simp only [List.mem_cons, List.not_mem_nil, or_false] at hrsp
    rcases hrsp with rfl | rfl | rfl <;> cases p <;>
      simp [InSlot, InContext, twoContexts, contextSize] at hslot hcontext <;> omega
  obtain ⟨first, hfirst⟩ : ∃ first : SwitchState Bool, first =
      ⟨⟨callRegs 0x1000#64 0x2000#64 0x8000#64, 0#64, fun _ ↦ 0#8⟩, true⟩ := ⟨_, rfl⟩
  obtain ⟨middle, hmiddle⟩ : ∃ middle : SwitchState Bool, middle =
      ⟨runCode switchContextCode first.machine, false⟩ := ⟨_, rfl⟩
  obtain ⟨second, hsecond⟩ : ∃ second : SwitchState Bool, second =
      ⟨⟨callRegs 0x2000#64 0x1000#64 0x9000#64, 0#64, middle.machine.memory⟩, false⟩ := ⟨_, rfl⟩
  have hstart : (switchSystem twoContexts).Run [] first := by
    refine TransitionSystem.Run.start fun p _ ↦ hclear _ ?_
    rw [hfirst]
    change load 64 (fun _ ↦ 0#8) _ ∈ _
    rw [load_zero]
    decide
  have haway : (switchSystem twoContexts).step first
      (.switch true false (callerContext first.machine)) middle := by
    refine ⟨by rw [hfirst], rfl, by rw [hfirst]; rfl, by rw [hfirst]; rfl, hclear _ ?_, hmiddle⟩
    rw [hfirst]
    simp [callRegs]
  have hwork : (switchSystem twoContexts).step middle .work second := by
    rw [hsecond]
    exact ⟨by rw [hmiddle], fun _ _ _ _ ↦ rfl⟩
  have hback : (switchSystem twoContexts).step second
      (.switch false true (callerContext second.machine))
        ⟨runCode switchContextCode second.machine, true⟩ := by
    refine ⟨by rw [hsecond], rfl, by rw [hsecond]; rfl, by rw [hsecond]; rfl, hclear _ ?_, rfl⟩
    rw [hsecond]
    simp [callRegs]
  have hrun := (hstart.step haway).step hwork
  exact ⟨first, second, hrun, contextSwitch_identity hrun hback (by simp [lastSaved])⟩

end Colix.Arch
