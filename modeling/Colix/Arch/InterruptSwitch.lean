import Mathlib.Tactic.IntervalCases
import Colix.Arch.InterruptRun

/-!
# Process switches between interrupts

`switch_context`, one instruction at a time, keeps `InterruptInvariant`: its stores go to the
context of the process that it suspends and to the slot below the live part of the stack that it
takes up.
With the other steps, `InterruptInvariant` holds along every run that is undisturbed
(`InterruptInvariant.of_run`).
-/

set_option autoImplicit false
set_option relaxedAutoImplicit false

namespace Colix.Arch

open Foundation

/-! ### Instructions on the processor -/

section Machine

variable {core : Core}

theorem Reg.reg?_gpr (r : Reg) : r.gpr.reg? = some r := by
  cases r <;> rfl

theorem Gpr.gpr_of_reg? {g : Gpr} {r : Reg} (hreg : g.reg? = some r) : g = r.gpr := by
  cases g <;> cases hreg <;> rfl

/-- A register that the code names is changed. -/
theorem Gpr.elim_update (gpr : Gpr → Word) (dst : Reg) (value : Word) :
    (fun g : Gpr ↦ g.reg?.elim (gpr g) (Function.update (fun r ↦ gpr r.gpr) dst value)) =
      Function.update gpr dst.gpr value := by
  funext g
  by_cases hdst : g = dst.gpr
  · rw [hdst, Reg.reg?_gpr, Option.elim_some, Function.update_self, Function.update_self]
  · rw [Function.update_of_ne hdst]
    cases hreg : g.reg? with
    | none => rfl
    | some r =>
      obtain rfl := Gpr.gpr_of_reg? hreg
      rw [Option.elim_some, Function.update_of_ne fun hsame ↦ hdst (by rw [hsame])]

theorem Core.withMachine_movLoad (dst base : Reg) (offset : Word) :
    core.withMachine ((Instr.movLoad dst base offset).exec core.machine) =
      core.setGpr dst.gpr
        (load 64 core.memory (core.registers.gpr base.gpr + offset).toNat) := by
  have hgpr := Gpr.elim_update core.registers.gpr dst
    (load 64 core.memory (core.registers.gpr base.gpr + offset).toNat)
  rw [Core.setGpr, Registers.setGpr, ← hgpr]
  rfl

theorem Core.withMachine_movStore (base src : Reg) (offset : Word) :
    core.withMachine ((Instr.movStore base offset src).exec core.machine) =
      { core with
        memory := store core.memory (core.registers.gpr base.gpr + offset).toNat
          (core.registers.gpr src.gpr) } := by
  have hgpr : (fun g : Gpr ↦ g.reg?.elim (core.registers.gpr g) core.machine.regs) =
      core.registers.gpr := by
    funext g
    cases hreg : g.reg? with
    | none => rfl
    | some r => rw [Gpr.gpr_of_reg? hreg]; rfl
  rw [Core.withMachine, show ((Instr.movStore base offset src).exec core.machine).regs =
    core.machine.regs from rfl, hgpr]
  rfl

theorem Core.withMachine_ret :
    core.withMachine (Instr.ret.exec core.machine) = core.ret := by
  have hgpr : _ = Function.update core.registers.gpr .rsp (core.registers.gpr .rsp + 8#64) :=
    Gpr.elim_update core.registers.gpr .rsp (core.registers.gpr .rsp + 8#64)
  rw [Core.ret, Registers.setGpr, ← hgpr]
  rfl

end Machine

/-- What the instructions of `switch_context` are. -/
theorem switchContextCode_cases {index : ℕ} {instr : Instr}
    (hinstr : switchContextCode[index]? = some instr) :
    (∃ offset src, index < 9 ∧ instr = .movStore .rdi offset src ∧ offset.toNat ≤ 56 ∧
        (index = 8 → offset = 56#64 ∧ src = .rsp)) ∨
      (∃ dst base offset, index ≠ 8 ∧ index ≠ 15 ∧ index < 17 ∧
        instr = .movLoad dst base offset ∧ dst ≠ .rsp ∧ dst ≠ .rdi ∧ dst ≠ .rsi) ∨
      (index = 15 ∧ instr = .movLoad .rsp .rsi 56#64) ∨
      (index = 17 ∧ instr = .movStore .rsp 0#64 .rax) ∨ (index = 18 ∧ instr = .ret) := by
  have hlt : index < 19 := (List.getElem?_eq_some_iff.mp hinstr).1
  simp only [switchContextCode, saveCode, restoreCode, List.cons_append, List.nil_append] at hinstr
  interval_cases index <;>
    (obtain rfl := Option.some.inj hinstr
     first
       | exact Or.inl ⟨_, _, by decide, rfl, by decide, by decide⟩
       | exact Or.inr (Or.inl ⟨_, _, _, by decide, by decide, by decide, rfl, by decide⟩)
       | simp)

/-! ### The steps -/

section Steps

variable {Proc : Type*} {layout : StackLayout Proc}
  {s next : InterruptState Proc} {p old new : Proc} {index : ℕ}

/-- The live part begins in the stack. -/
theorem Frames.ceiling_le {memory : Memory} {count : ℕ} {entries : List (Entry Proc)}
    (hframes : Frames layout memory p count entries) :
    layout.ceiling p entries ≤ layout.limit p := by
  cases entries with
  | nil => exact le_refl _
  | cons entry rest =>
    have hlimit := hframes.1.le_limit
    rw [frameSize] at hlimit
    rw [StackLayout.ceiling]
    omega

/-- A store to the context of the process that is suspended. -/
theorem InterruptInvariant.switch_store {offset : Word} {src : Reg}
    (hinv : InterruptInvariant layout s) (hpoint : s.point = .switching index new)
    (hindex : index < 9) (hoffset : offset.toNat ≤ 56)
    (hlast : index = 8 → offset = 56#64 ∧ src = .rsp) :
    InterruptInvariant layout
      { s with
        core := s.core.withMachine ((Instr.movStore .rdi offset src).exec s.core.machine)
        point := .switching (index + 1) new } := by
  have hholds := hinv.point
  have hframes := hinv.frames
  rw [hpoint] at hholds hframes
  have hfits := layout.fits s.running
  have haddress : (s.core.registers.gpr .rdi + offset).toNat =
      (layout.context s.running).toNat + offset.toNat := by
    rw [hholds.rdi (by omega)]
    exact toNat_field hfits hoffset
  rw [Core.withMachine_movStore, show Reg.gpr .rdi = .rdi from rfl, haddress]
  obtain ⟨memory, hmemory⟩ : ∃ memory, memory = store s.core.memory
    ((layout.context s.running).toNat + offset.toNat) (s.core.registers.gpr src.gpr) := ⟨_, rfl⟩
  rw [← hmemory]
  have hkept : ∀ position, ¬ InContext (layout.context s.running) position →
      memory position = s.core.memory position := by
    intro position houtside
    rw [InContext, contextSize] at houtside
    rw [hmemory]
    refine store_apply_of_disjoint _ ?_
    change position < _ ∨ _ + 8 ≤ position
    omega
  refine ⟨⟨hholds.onStack, hholds.outside, fun _ ↦ hholds.rdi (by omega),
    fun _ ↦ hholds.rsi (by omega), fun hge _ ↦ ?_⟩, ?_, fun p hp ↦ ?_, hinv.rsp0⟩
  · obtain ⟨rfl, rfl⟩ := hlast (by omega)
    change load 64 memory ((layout.context s.running).toNat + 56) = _
    rw [hmemory]
    exact load_store (by decide) _
  · exact hframes.congr_inside (Nat.zero_le 23)
      (fun position hstack _ ↦ hkept position (layout.not_inContext (Or.inl hstack)))
      fun hinside ↦ absurd hholds.outside hinside
  · exact (hinv.suspended p hp).congr fun position hposition ↦
      hkept position (layout.not_inContext (hposition.imp_right fun hcontext ↦ ⟨hp, hcontext⟩))

/-- A load of a register that holds neither the stack pointer nor an argument. -/
theorem InterruptInvariant.switch_load {dst base : Reg} {offset : Word}
    (hinv : InterruptInvariant layout s) (hpoint : s.point = .switching index new)
    (hsave : index ≠ 8) (hswitch : index ≠ 15)
    (hrsp : dst ≠ .rsp) (hrdi : dst ≠ .rdi) (hrsi : dst ≠ .rsi) :
    InterruptInvariant layout
      { s with
        core := s.core.withMachine ((Instr.movLoad dst base offset).exec s.core.machine)
        point := .switching (index + 1) new } := by
  have hholds := hinv.point
  have hframes := hinv.frames
  rw [hpoint] at hholds hframes
  have hother : ∀ r : Reg, dst ≠ r →
      (s.core.withMachine ((Instr.movLoad dst base offset).exec s.core.machine)).registers.gpr
        r.gpr = s.core.registers.gpr r.gpr := by
    intro r hr
    rw [Core.withMachine_movLoad]
    refine Registers.setGpr_gpr_of_ne _ _ fun hsame ↦ hr ?_
    have hnames := congrArg Gpr.reg? hsame
    rw [Reg.reg?_gpr, Reg.reg?_gpr] at hnames
    exact (Option.some.inj hnames).symm
  have hstack : (s.core.withMachine
      ((Instr.movLoad dst base offset).exec s.core.machine)).registers.stackPointer =
        s.core.registers.stackPointer := congrArg BitVec.toNat (hother .rsp hrsp)
  refine ⟨⟨⟨hholds.onStack.kernel, ?_, ?_⟩, hholds.outside, fun hlt ↦ ?_, fun hlt ↦ ?_,
    fun hge hlt ↦ ?_⟩, hframes, hinv.suspended, hinv.rsp0⟩
  · rw [hstack]
    exact hholds.onStack.bottom_le
  · rw [hstack]
    exact hholds.onStack.le_ceiling
  · exact (hother .rdi hrdi).trans (hholds.rdi (by omega))
  · exact (hother .rsi hrsi).trans (hholds.rsi (by omega))
  · exact (hholds.saved (by omega) (by omega)).trans (hother .rsp hrsp).symm

/-- Before the stack is switched, the process that is left is suspended as the others are. -/
theorem InterruptInvariant.suspended_all (hinv : InterruptInvariant layout s)
    (hpoint : s.point = .switching 15 new) (p : Proc) :
    Suspended layout s.core.memory p (s.entries p) := by
  by_cases hp : p = s.running
  · have hholds := hinv.point
    have hframes := hinv.frames
    rw [hpoint] at hholds hframes
    have hsaved : (loadContext s.core.memory (layout.context s.running).toNat).rsp =
        s.core.registers.gpr .rsp := hholds.saved (by decide) (by decide)
    rw [hp]
    refine ⟨?_, ?_, hholds.outside, hframes⟩
    · rw [hsaved]
      exact hholds.onStack.bottom_le
    · rw [hsaved]
      exact hholds.onStack.le_ceiling
  · exact hinv.suspended p hp

/-- The instruction that switches the stack. -/
theorem InterruptInvariant.switch_stack (hinv : InterruptInvariant layout s)
    (hpoint : s.point = .switching 15 new) :
    InterruptInvariant layout
      { s with
        core := s.core.withMachine ((Instr.movLoad .rsp .rsi 56#64).exec s.core.machine)
        running := new
        tssRsp0 := layout.kernelRsp new
        point := .switching 16 new } := by
  have hholds := hinv.point
  rw [hpoint] at hholds
  have hnew := hinv.suspended_all hpoint new
  have hfits := layout.fits new
  have haddress : (s.core.registers.gpr .rsi + 56#64).toNat =
      (layout.context new).toNat + 56 := by
    rw [hholds.rsi (by decide)]
    exact toNat_field hfits (by decide)
  rw [Core.withMachine_movLoad, show Reg.gpr .rsi = .rsi from rfl, haddress]
  have hstack : (s.core.setGpr (Reg.gpr .rsp)
      (load 64 s.core.memory ((layout.context new).toNat + 56))).registers.stackPointer =
        (loadContext s.core.memory (layout.context new).toNat).rsp.toNat :=
    congrArg BitVec.toNat (Registers.setGpr_gpr_self ..)
  refine ⟨⟨⟨hholds.onStack.kernel, ?_, ?_⟩, hnew.outside, fun hlt ↦ absurd hlt (by decide),
    fun hlt ↦ absurd hlt (by decide), fun _ hlt ↦ absurd hlt (by decide)⟩, hnew.frames,
    fun p _ ↦ hinv.suspended_all hpoint p, fun _ ↦ rfl⟩
  · rw [hstack]
    exact hnew.bottom_le
  · rw [hstack]
    exact hnew.le_ceiling

/-- The store of the return address, below the live part of the stack. -/
theorem InterruptInvariant.switch_slot (hinv : InterruptInvariant layout s)
    (hpoint : s.point = .switching 17 new) :
    InterruptInvariant layout
      { s with
        core := s.core.withMachine ((Instr.movStore .rsp 0#64 .rax).exec s.core.machine)
        point := .switching 18 new } := by
  have hholds := hinv.point
  have hframes := hinv.frames
  rw [hpoint] at hholds hframes
  have hbottom := hholds.onStack.bottom_le
  have hceiling := hholds.onStack.le_ceiling
  have hlimit := hframes.ceiling_le
  rw [Core.withMachine_movStore, show Reg.gpr .rsp = .rsp from rfl, BitVec.add_zero]
  obtain ⟨memory, hmemory⟩ : ∃ memory, memory = store s.core.memory
    (s.core.registers.gpr .rsp).toNat (s.core.registers.gpr (Reg.gpr .rax)) := ⟨_, rfl⟩
  rw [← hmemory]
  have hkept : ∀ position, position < s.core.registers.stackPointer ∨
      s.core.registers.stackPointer + 8 ≤ position →
        memory position = s.core.memory position := by
    intro position houtside
    rw [hmemory]
    exact store_apply_of_disjoint _ houtside
  refine ⟨⟨hholds.onStack, hholds.outside, fun hlt ↦ absurd hlt (by decide),
    fun hlt ↦ absurd hlt (by decide), fun _ hlt ↦ absurd hlt (by decide)⟩, ?_, fun p hp ↦ ?_,
    hinv.rsp0⟩
  · exact hframes.congr (Nat.zero_le 23)
      (fun position hge _ ↦ hkept position (Or.inr (hceiling.trans hge)))
      fun hinside ↦ absurd hholds.outside hinside
  · refine hinv.suspended_congr (fun position hposition ↦ hkept position ?_) hp
    rw [StackLayout.InStack] at hposition
    omega

/-- The return of `switch_context`. -/
theorem InterruptInvariant.switch_ret (hinv : InterruptInvariant layout s)
    (hpoint : s.point = .switching 18 new) :
    InterruptInvariant layout
      { s with
        core := s.core.withMachine (Instr.ret.exec s.core.machine)
        point := .code } := by
  have hholds := hinv.point
  have hframes := hinv.frames
  rw [hpoint] at hholds hframes
  have hbottom := hholds.onStack.bottom_le
  have hceiling := hholds.onStack.le_ceiling
  have hlimit := hframes.ceiling_le
  have hfits := layout.limit_lt s.running
  have hstack : s.core.ret.registers.stackPointer = s.core.registers.stackPointer + 8 :=
    Core.stackPointer_ret (by omega)
  rw [Core.withMachine_ret]
  exact ⟨⟨hholds.onStack.kernel, hbottom.trans (hstack ▸ Nat.le_add_right _ 8), hstack ▸ hceiling⟩,
    hframes, hinv.suspended, hinv.rsp0⟩

variable [DecidableEq Proc]

theorem InterruptInvariant.callSwitch (hinv : InterruptInvariant layout s)
    (hmet : layout.Undisturbed s (.callSwitch old new))
    (hstep : (interruptSystem layout).step s (.callSwitch old new) next) :
    InterruptInvariant layout next := by
  obtain ⟨hcode, hrdi, hrsi, hbottom, hceiling, rfl⟩ := hstep
  obtain ⟨rfl, houtside⟩ := hmet
  have hpoint := hinv.point
  have hframes := hinv.frames
  rw [hcode] at hpoint hframes
  exact ⟨⟨⟨hpoint.kernel, hbottom, hceiling⟩, houtside, fun _ ↦ hrdi, fun _ ↦ hrsi,
    fun hge ↦ absurd hge (by decide)⟩, hframes, hinv.suspended, hinv.rsp0⟩

theorem InterruptInvariant.switch (hinv : InterruptInvariant layout s)
    (hstep : (interruptSystem layout).step s .switch next) : InterruptInvariant layout next := by
  obtain ⟨index, new, instr, hpoint, hinstr, rfl⟩ := hstep
  rcases switchContextCode_cases hinstr with ⟨offset, src, hindex, rfl, hoffset, hlast⟩ |
    ⟨dst, base, offset, hsave, hswitch, hindex, rfl, hrsp, hrdi, hrsi⟩ | ⟨rfl, rfl⟩ |
    ⟨rfl, rfl⟩ | ⟨rfl, rfl⟩
  · rw [if_neg (by omega), if_neg (by omega), if_neg (by omega)]
    exact hinv.switch_store hpoint hindex hoffset hlast
  · rw [if_neg hswitch, if_neg hswitch, if_neg (by omega)]
    exact hinv.switch_load hpoint hsave hswitch hrsp hrdi hrsi
  · exact hinv.switch_stack hpoint
  · exact hinv.switch_slot hpoint
  · exact hinv.switch_ret hpoint

/-! ### Runs -/

theorem InterruptInvariant.start (hstart : (interruptSystem layout).start s) :
    InterruptInvariant layout s := by
  obtain ⟨hcode, hentries, hkernel, hbottom, hlimit, hrsp0, hslots⟩ := hstart
  refine ⟨?_, ?_, fun p hp ↦ ?_, hrsp0⟩
  · rw [hcode, hentries]
    exact ⟨hkernel, hbottom, hlimit⟩
  · rw [hentries]
    trivial
  · rw [hentries]
    exact ⟨(hslots p hp).1, (hslots p hp).2, outsideSwitch_nil, trivial⟩

/-- The step lemma. -/
theorem InterruptInvariant.step {event : InterruptEvent Proc} (hinv : InterruptInvariant layout s)
    (hstep : ((interruptSystem layout).restrict layout.Undisturbed).step s event next) :
    InterruptInvariant layout next := by
  obtain ⟨hmet, hstep⟩ := hstep
  cases event with
  | work => exact hinv.work hstep
  | create p => exact hinv.create hstep
  | receive message => exact hinv.receive hmet hstep
  | loadSegment dest bytes => exact hinv.loadSegment hmet hstep
  | cell index value => exact hinv.cell hmet hstep
  | interrupt number => exact hinv.interrupt hstep
  | setResult result => exact hinv.setResult hstep
  | dispatchReturn => exact hinv.dispatchReturn hstep
  | exit => exact hinv.exit hstep
  | iretq => exact hinv.iretq hstep
  | callSwitch old new => exact hinv.callSwitch hmet hstep
  | switch => exact hinv.switch hstep
  | enterUser => exact hinv.enterUser hstep

/-- The run lemma. -/
theorem InterruptInvariant.of_run {events : List (InterruptEvent Proc)}
    (hrun : ((interruptSystem layout).restrict layout.Undisturbed).Run events s) :
    InterruptInvariant layout s := by
  refine hrun.invariant (motive := InterruptInvariant layout) ?_ ?_
  · exact fun s hstart ↦ .start hstart
  · exact fun s event next hinv hstep ↦ hinv.step hstep

end Steps

end Colix.Arch
