import Colix.Arch.Interrupts

/-!
# The frames of interrupts that have not returned

What a kernel stack holds while interrupts of its process have not returned: `EntryHolds` for one of
them, `PointHolds` for what runs on top of it, and `Frames` for all of a process, from the latest to
the first. `Frames.congr` says what they depend on: the stack from its live part up, and the saved
context only when an interrupt came in `switch_context`. `InterruptInvariant` puts the running
process and the suspended ones together.
-/

set_option autoImplicit false
set_option relaxedAutoImplicit false

namespace Colix.Arch

open Foundation

variable {Proc : Type*}

/-! ### Statements -/

/-- How many words at the frame, the return address first, the way out has taken. -/
def Point.popped : Point Proc → ℕ
  | .exiting index => 1 + if index < 16 then index else 17
  | _ => 0

/-- Kernel code on the stack of the process, with room below the part that it has to keep. -/
structure OnStack (layout : StackLayout Proc) (p : Proc) (registers : Registers)
    (room ceiling : ℕ) : Prop where
  kernel : ¬ registers.UserMode
  bottom_le : layout.bottom p ≤ registers.stackPointer
  le_ceiling : registers.stackPointer + room ≤ ceiling

/-- Before the instruction of `switch_context` with this index. Up to the one that loads `rsp` the
arguments stand in their registers, and from the tenth on the stack pointer is saved. -/
structure SwitchHolds (layout : StackLayout Proc) (memory : Memory) (p : Proc)
    (registers : Registers) (entries : List (Entry Proc)) (index : ℕ) (new : Proc) : Prop where
  onStack : OnStack layout p registers 8 (layout.ceiling p entries)
  outside : OutsideSwitch entries
  rdi : index < 16 → registers.gpr .rdi = layout.context p
  rsi : index < 16 → registers.gpr .rsi = layout.context new
  saved : 9 ≤ index → index < 16 →
    (loadContext memory (layout.context p).toNat).rsp = registers.gpr .rsp

/-- Before the instruction of the way out with this index: the stack pointer is at the words that
are left, and the registers that are popped are those to return to. -/
structure ExitHolds (registers : Registers) (entry : Entry Proc) (index : ℕ) : Prop where
  kernel : ¬ registers.UserMode
  stackPointer : registers.stackPointer =
    entry.frame - 8 + 8 * (Point.exiting index : Point Proc).popped
  index_le : index ≤ 16
  result : entry.number = 0x80 → entry.result.isSome
  gpr : ∀ r ∈ restoreOrder.take index, registers.gpr r = entry.returned.gpr r

/-- The registers fit to what is executed on top of the interrupts. -/
def PointHolds (layout : StackLayout Proc) (memory : Memory) (p : Proc) (registers : Registers)
    (entries : List (Entry Proc)) : Point Proc → Prop
  | .user => entries = [] ∧ layout.IsUser p ∧ registers.UserMode
  | .code => OnStack layout p registers 0 (layout.ceiling p entries)
  | .switching index new => SwitchHolds layout memory p registers entries index new
  | .exiting index => ∃ entry rest, entries = entry :: rest ∧ ExitHolds registers entry index

/-- An interrupt whose frame has this many words taken. The frame lies in the stack, below the
stack pointer of kernel code that was interrupted, and the words that are left are those of the
registers to return to. Only a system call has a result. -/
structure EntryHolds (layout : StackLayout Proc) (memory : Memory) (p : Proc) (count : ℕ)
    (entry : Entry Proc) : Prop where
  bottom_le : layout.bottom p + 8 ≤ entry.frame
  le_limit : entry.frame + frameSize ≤ layout.limit p
  le_saved : ¬ entry.saved.UserMode → entry.frame + frameSize ≤ entry.saved.stackPointer
  number_lt : entry.number < 256
  dispatch : entry.dispatch = interruptDispatch (entry.saved.frame entry.number 0#64)
  systemCall : entry.number = 0x80 → entry.point = .user ∨ entry.point = .code
  result : entry.number ≠ 0x80 → entry.result = none
  words : WordsAt memory (entry.frame - 8 + 8 * count)
    ((layout.symbols.returnAddress :: entry.returned.frameWords entry.number 0#64).drop count)

/-- The interrupts of the process that have not returned, with words of the latest frame taken. -/
def Frames (layout : StackLayout Proc) (memory : Memory) (p : Proc) :
    ℕ → List (Entry Proc) → Prop
  | _, [] => True
  | count, entry :: rest =>
    EntryHolds layout memory p count entry ∧
      PointHolds layout memory p entry.saved rest entry.point ∧
      Frames layout memory p entry.point.popped rest

/-- A process that is not running: it is to be continued behind a call of `switch_context`. -/
structure Suspended (layout : StackLayout Proc) (memory : Memory) (p : Proc)
    (entries : List (Entry Proc)) : Prop where
  bottom_le : layout.bottom p ≤ (loadContext memory (layout.context p).toNat).rsp.toNat
  le_ceiling : (loadContext memory (layout.context p).toNat).rsp.toNat + 8 ≤
    layout.ceiling p entries
  outside : OutsideSwitch entries
  frames : Frames layout memory p 0 entries

/-- What runs keep. -/
structure InterruptInvariant (layout : StackLayout Proc) (s : InterruptState Proc) : Prop where
  point : PointHolds layout s.core.memory s.running s.core.registers (s.entries s.running) s.point
  frames : Frames layout s.core.memory s.running s.point.popped (s.entries s.running)
  suspended : ∀ p, p ≠ s.running → Suspended layout s.core.memory p (s.entries p)
  rsp0 : layout.IsUser s.running → s.tssRsp0 = layout.kernelRsp s.running

section Frames

variable {layout : StackLayout Proc} {memory next : Memory} {p : Proc} {registers : Registers}
  {entries rest : List (Entry Proc)} {entry : Entry Proc} {point : Point Proc} {count : ℕ}

/-! ### The live part of a stack -/

theorem Point.popped_le (point : Point Proc) : point.popped ≤ 18 := by
  cases point with
  | exiting index =>
    rw [Point.popped]
    split_ifs <;> omega
  | _ => exact Nat.zero_le _

theorem outsideSwitch_nil : OutsideSwitch ([] : List (Entry Proc)) := by
  intro entry hentry
  cases hentry

/-- On top of an interrupt runs kernel code, and its stack pointer is not in the live part. -/
theorem PointHolds.le_live
    (hpoint : PointHolds layout memory p registers (entry :: rest) point) :
    ¬ registers.UserMode ∧
      registers.stackPointer ≤ layout.ceiling p (entry :: rest) + 8 * point.popped := by
  cases point with
  | user => cases hpoint.1
  | code => exact ⟨hpoint.kernel, hpoint.le_ceiling⟩
  | switching index new =>
    have hle := hpoint.onStack.le_ceiling
    exact ⟨hpoint.onStack.kernel, by omega⟩
  | exiting index =>
    obtain ⟨top, others, hentries, hexit⟩ := hpoint
    obtain ⟨rfl, rfl⟩ := List.cons.inj hentries
    exact ⟨hexit.kernel, hexit.stackPointer.le⟩

/-- Kernel code has its stack pointer in its stack. -/
theorem PointHolds.le_limit (hpoint : PointHolds layout memory p registers entries point)
    (hframes : Frames layout memory p point.popped entries) (hkernel : ¬ registers.UserMode) :
    registers.stackPointer ≤ layout.limit p := by
  cases entries with
  | nil =>
    cases point with
    | user => exact absurd hpoint.2.2 hkernel
    | code => exact hpoint.le_ceiling
    | switching index new => exact Nat.le_of_add_right_le hpoint.onStack.le_ceiling
    | exiting index =>
      obtain ⟨entry, rest, hentries, -⟩ := hpoint
      cases hentries
  | cons entry rest =>
    have hlive := hpoint.le_live.2
    have hfits := hframes.1.le_limit
    have hpopped := point.popped_le
    rw [frameSize] at hfits
    rw [StackLayout.ceiling] at hlive
    omega

/-! ### What they depend on -/

/-- What is executed depends on memory only in `switch_context`. -/
theorem PointHolds.congr (hpoint : PointHolds layout memory p registers entries point)
    (hcontext : point.Switching → ∀ position, InContext (layout.context p) position →
      next position = memory position) :
    PointHolds layout next p registers entries point := by
  cases point with
  | switching index new =>
    refine { hpoint with saved := fun hge hlt ↦ ?_ }
    rw [loadContext_congr (hcontext ⟨by omega, by omega⟩)]
    exact hpoint.saved hge hlt
  | _ => exact hpoint

/-- An interrupt depends on the words of its frame that are left. -/
theorem EntryHolds.congr (hentry : EntryHolds layout memory p count entry) (hcount : count ≤ 23)
    (hstack : ∀ position, entry.frame - 8 + 8 * count ≤ position → position < layout.limit p →
      next position = memory position) : EntryHolds layout next p count entry := by
  refine { hentry with words := hentry.words.congr fun position hge hlt ↦ hstack position hge ?_ }
  have hbottom := hentry.bottom_le
  have hlimit := hentry.le_limit
  rw [frameSize] at hlimit
  rw [List.length_drop, List.length_cons, length_frameWords] at hlt
  omega

/-- Interrupts depend on the live part of the stack, and on the saved context if one of them came in
`switch_context`. -/
theorem Frames.congr (hframes : Frames layout memory p count entries) (hcount : count ≤ 23)
    (hstack : ∀ position, layout.ceiling p entries + 8 * count ≤ position →
      position < layout.limit p → next position = memory position)
    (hcontext : ¬ OutsideSwitch entries → ∀ position, InContext (layout.context p) position →
      next position = memory position) : Frames layout next p count entries := by
  induction entries generalizing count with
  | nil => trivial
  | cons entry rest ih =>
    obtain ⟨hentry, hpoint, hrest⟩ := hframes
    refine ⟨hentry.congr hcount hstack, hpoint.congr fun hswitching ↦ hcontext fun houtside ↦
      houtside entry (List.mem_cons_self ..) hswitching, ?_⟩
    refine ih hrest (entry.point.popped_le.trans (by decide)) (fun position hge hlt ↦ ?_)
      fun hinside ↦ hcontext fun houtside ↦ hinside fun other hother ↦
        houtside other (List.mem_cons_of_mem _ hother)
    -- the frames of earlier interrupts lie above this one's
    refine hstack position ?_ hlt
    cases rest with
    | nil =>
      rw [StackLayout.ceiling] at hge
      omega
    | cons earlier others =>
      obtain ⟨hkernel, hlive⟩ := hpoint.le_live
      have habove := hentry.le_saved hkernel
      have hbottom := hentry.bottom_le
      rw [frameSize] at habove
      change entry.frame - 8 + 8 * count ≤ position
      omega

/-- The live part of the stack lies in the stack. -/
theorem Frames.congr_inside (hframes : Frames layout memory p count entries) (hcount : count ≤ 23)
    (hstack : ∀ position, layout.InStack p position →
      layout.ceiling p entries + 8 * count ≤ position → next position = memory position)
    (hcontext : ¬ OutsideSwitch entries → ∀ position, InContext (layout.context p) position →
      next position = memory position) : Frames layout next p count entries := by
  cases entries with
  | nil => trivial
  | cons entry rest =>
    have hbottom := hframes.1.bottom_le
    refine hframes.congr hcount (fun position hge hlt ↦ hstack position ⟨?_, hlt⟩ hge) hcontext
    rw [StackLayout.ceiling] at hge
    omega

/-- Interrupts below code of the process depend on the stack from its stack pointer up. -/
theorem Frames.congr_above {top : ℕ}
    (hpoint : PointHolds layout memory p registers entries point)
    (hframes : Frames layout memory p point.popped entries)
    (htop : ¬ registers.UserMode → top ≤ registers.stackPointer)
    (hstack : ∀ position, top ≤ position → position < layout.limit p →
      next position = memory position)
    (hcontext : ∀ position, InContext (layout.context p) position →
      next position = memory position) : Frames layout next p point.popped entries := by
  cases entries with
  | nil => trivial
  | cons entry rest =>
    obtain ⟨hkernel, hlive⟩ := hpoint.le_live
    have hle := htop hkernel
    exact hframes.congr (point.popped_le.trans (by decide))
      (fun position hge hlt ↦ hstack position (by omega) hlt) fun _ ↦ hcontext

/-- A suspended process depends on its stack and its context. -/
theorem Suspended.congr (hsuspended : Suspended layout memory p entries)
    (hagree : ∀ position, layout.Owns p position → next position = memory position) :
    Suspended layout next p entries := by
  have hcontext : loadContext next (layout.context p).toNat =
      loadContext memory (layout.context p).toNat :=
    loadContext_congr fun position hposition ↦ hagree position (Or.inr hposition)
  have hbottom := hsuspended.bottom_le
  have hceiling := hsuspended.le_ceiling
  refine ⟨by rwa [hcontext], by rwa [hcontext], hsuspended.outside, ?_⟩
  refine hsuspended.frames.congr (by decide) (fun position hge hlt ↦ ?_)
    fun _ position hposition ↦ hagree position (Or.inr hposition)
  exact hagree position (Or.inl ⟨by omega, hlt⟩)

/-! ### What returning needs -/

theorem EntryHolds.isSyscall_iff (hentry : EntryHolds layout memory p count entry) :
    entry.dispatch.IsSyscall ↔ entry.number = 0x80 := by
  rw [hentry.dispatch]
  exact isSyscall_interruptDispatch_frame entry.saved 0#64 hentry.number_lt

/-- Words are taken from the frame. -/
theorem EntryHolds.take (hentry : EntryHolds layout memory p count entry) (more : ℕ) :
    EntryHolds layout memory p (count + more) entry := by
  refine { hentry with words := ?_ }
  have hwords := hentry.words.drop more
  rwa [List.drop_drop, Nat.add_assoc, ← Nat.mul_add] at hwords

/-- User code and C code may go on with any `rax`. -/
theorem PointHolds.setGpr_rax (hpoint : PointHolds layout memory p registers entries point)
    (hcode : point = .user ∨ point = .code) (value : Word) :
    PointHolds layout memory p (registers.setGpr .rax value) entries point := by
  rcases hcode with rfl | rfl
  · exact hpoint
  · have hsame : (registers.setGpr .rax value).stackPointer = registers.stackPointer :=
      congrArg BitVec.toNat (Registers.setGpr_gpr_of_ne _ _ (by decide))
    exact ⟨hpoint.kernel, by rw [hsame]; exact hpoint.bottom_le,
      by rw [hsame]; exact hpoint.le_ceiling⟩

/-- An interrupt that came in anything but user code or C code has no result. -/
theorem EntryHolds.pointHolds_returned (hentry : EntryHolds layout memory p count entry)
    (hpoint : PointHolds layout memory p entry.saved rest entry.point) :
    PointHolds layout memory p entry.returned rest entry.point := by
  rw [Entry.returned]
  cases hresult : entry.result with
  | none => exact hpoint
  | some result =>
    have hcall : entry.number = 0x80 := by
      by_contra hother
      rw [hentry.result hother] at hresult
      cases hresult
    exact hpoint.setGpr_rax (hentry.systemCall hcall) result

end Frames

end Colix.Arch
