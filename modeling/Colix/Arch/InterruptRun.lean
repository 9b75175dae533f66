import Colix.Arch.InterruptedFrames

/-!
# Interrupts along runs

Each kind of step keeps `InterruptInvariant`, and with them runs do (`InterruptInvariant.of_run`).
`InterruptState.enter` and `InterruptInvariant.iretq_returns` say what an interrupt leaves for
`interrupt_dispatch` and with which registers it returns.
-/

set_option autoImplicit false
set_option relaxedAutoImplicit false

namespace Colix.Arch

open Foundation

variable {Proc : Type*} {layout : StackLayout Proc}

/-! ### Stacks and contexts -/

/-- A stack holds no context, and nothing of another stack. -/
theorem StackLayout.not_inStack (layout : StackLayout Proc) {p q : Proc} {position : ℕ}
    (hposition : p ≠ q ∧ layout.InStack p position ∨ InContext (layout.context p) position) :
    ¬ layout.InStack q position := by
  rintro ⟨hge, hlt⟩
  rcases hposition with ⟨hne, hfirst, hlast⟩ | ⟨hfirst, hlast⟩
  · rcases layout.stacks_apart p q hne with hbelow | habove
    · omega
    · omega
  · rcases layout.contexts_apart q p with hbelow | habove
    · omega
    · omega

/-- A context holds nothing of a stack or of another context. -/
theorem StackLayout.not_inContext (layout : StackLayout Proc) {p q : Proc} {position : ℕ}
    (hposition : layout.InStack p position ∨ p ≠ q ∧ InContext (layout.context p) position) :
    ¬ InContext (layout.context q) position := by
  rcases hposition with hstack | ⟨hne, hcontext⟩
  · exact fun hcontext ↦ layout.not_inStack (Or.inr hcontext) hstack
  · exact layout.apart p q hne position hcontext

section Steps

variable {s next : InterruptState Proc} {memory : Memory} {p : Proc}

/-- User code runs on top of no interrupt. -/
theorem PointHolds.user_of_userMode {registers : Registers} {entries : List (Entry Proc)}
    {point : Point Proc} (hpoint : PointHolds layout memory p registers entries point)
    (huser : registers.UserMode) : entries = [] ∧ layout.IsUser p := by
  cases point with
  | user => exact ⟨hpoint.1, hpoint.2.1⟩
  | code => exact absurd huser hpoint.kernel
  | switching index new => exact absurd huser hpoint.onStack.kernel
  | exiting index =>
    obtain ⟨entry, rest, -, hexit⟩ := hpoint
    exact absurd huser hexit.kernel

/-- What happens in the running process's stack alone leaves the others suspended. -/
theorem InterruptInvariant.suspended_congr (hinv : InterruptInvariant layout s)
    (hkept : ∀ position, ¬ layout.InStack s.running position →
      memory position = s.core.memory position) (hp : p ≠ s.running) :
    Suspended layout memory p (s.entries p) := by
  refine (hinv.suspended p hp).congr fun position hposition ↦ hkept position ?_
  exact layout.not_inStack (hposition.imp_left fun hstack ↦ ⟨hp, hstack⟩)

/-- A store outside the stacks and the contexts. -/
theorem InterruptInvariant.storeOutside (hinv : InterruptInvariant layout s)
    (hkept : ∀ p position, layout.Owns p position → memory position = s.core.memory position) :
    InterruptInvariant layout { s with core := { s.core with memory := memory } } := by
  refine ⟨hinv.point.congr fun _ position hcontext ↦ hkept _ position (Or.inr hcontext), ?_,
    fun p hp ↦ (hinv.suspended p hp).congr (hkept p), hinv.rsp0⟩
  exact hinv.frames.congr_inside (s.point.popped_le.trans (by decide))
    (fun position hstack _ ↦ hkept _ position (Or.inl hstack))
    fun _ position hcontext ↦ hkept _ position (Or.inr hcontext)

variable [DecidableEq Proc]

/-! ### Code -/

theorem InterruptInvariant.work (hinv : InterruptInvariant layout s)
    (hstep : (interruptSystem layout).step s .work next) : InterruptInvariant layout next := by
  obtain ⟨hnext, hworks⟩ := hstep
  obtain ⟨core, running, tssRsp0, point, entries⟩ := s
  cases point with
  | user =>
    obtain ⟨huser, hkept⟩ := hworks
    obtain ⟨hentries, hisUser, -⟩ := hinv.point
    rw [hnext]
    exact { hinv.storeOutside hkept with point := ⟨hentries, hisUser, huser⟩ }
  | code =>
    obtain ⟨hkernel, hbottom, hceiling, hstacks, hcontexts⟩ := hworks
    rw [hnext]
    refine ⟨⟨hkernel, hbottom, hceiling⟩, ?_, fun p hp ↦ ?_, hinv.rsp0⟩
    · exact hinv.frames.congr_inside (Nat.zero_le 23)
        (fun position hstack hge ↦ hstacks running position hstack fun _ ↦ hge)
        fun _ ↦ hcontexts running
    · refine (hinv.suspended p hp).congr fun position hposition ↦ ?_
      rcases hposition with hstack | hcontext
      · exact hstacks p position hstack fun heq ↦ absurd heq hp
      · exact hcontexts p position hcontext
  | switching index new => exact hworks.elim
  | exiting index => exact hworks.elim

theorem InterruptInvariant.create (hinv : InterruptInvariant layout s)
    (hstep : (interruptSystem layout).step s (.create p) next) :
    InterruptInvariant layout next := by
  obtain ⟨hcode, hne, hempty, hnext, hslot, hkept⟩ := hstep
  obtain ⟨core, running, tssRsp0, point, entries⟩ := s
  obtain rfl : point = .code := hcode
  rw [hnext]
  have hrunning : ∀ position, layout.Owns running position →
      next.core.memory position = core.memory position :=
    fun position ↦ hkept running position hne.symm
  refine ⟨hinv.point, ?_, fun q hq ↦ ?_, hinv.rsp0⟩
  · exact hinv.frames.congr_inside (Nat.zero_le 23)
      (fun position hstack _ ↦ hrunning position (Or.inl hstack))
      fun _ position hcontext ↦ hrunning position (Or.inr hcontext)
  · by_cases hsame : q = p
    · subst hsame
      change Suspended layout next.core.memory q (entries q)
      rw [show entries q = [] from hempty]
      exact ⟨hslot.1, hslot.2, outsideSwitch_nil, trivial⟩
    · exact (hinv.suspended q hq).congr fun position ↦ hkept q position hsame

omit [DecidableEq Proc] in
theorem storeReceived_apply_of_outside {out position : ℕ} {message : IpcMessage}
    (houtside : ¬ InReceived out message position) :
    storeReceived memory out message position = memory position := by
  rw [InReceived] at houtside
  rw [storeReceived, store_apply_of_disjoint _ (by omega), placeBytes, if_neg ?_,
    store_apply_of_disjoint _ (by omega), store_apply_of_disjoint _ (by omega),
    store_apply_of_disjoint _ (by omega)]
  rw [List.length_map, List.length_range]
  omega

theorem InterruptInvariant.receive {out : Word} {message : IpcMessage}
    (hinv : InterruptInvariant layout s) (hmet : layout.Undisturbed s (.receive out message))
    (hstep : (interruptSystem layout).step s (.receive out message) next) :
    InterruptInvariant layout next := by
  obtain ⟨-, -, -, -, rfl⟩ := hstep
  exact hinv.storeOutside fun p position howns ↦
    storeReceived_apply_of_outside fun hwritten ↦ hmet p position hwritten howns

theorem InterruptInvariant.loadSegment {dest : ℕ} {bytes : List (BitVec 8)}
    (hinv : InterruptInvariant layout s) (hmet : layout.Undisturbed s (.loadSegment dest bytes))
    (hstep : (interruptSystem layout).step s (.loadSegment dest bytes) next) :
    InterruptInvariant layout next := by
  obtain ⟨-, rfl⟩ := hstep
  refine hinv.storeOutside fun p position howns ↦ if_neg ?_
  rintro ⟨hge, hlt⟩
  exact hmet p position hge hlt howns

theorem InterruptInvariant.cell {index : ℕ} {value : BitVec 16}
    (hinv : InterruptInvariant layout s) (hmet : layout.Undisturbed s (.cell index value))
    (hstep : (interruptSystem layout).step s (.cell index value) next) :
    InterruptInvariant layout next := by
  obtain ⟨-, rfl⟩ := hstep
  refine hinv.storeOutside fun p position howns ↦ store_apply_of_disjoint _ ?_
  by_contra hinside
  exact hmet p position (by omega) (by omega) howns

theorem InterruptInvariant.enterUser (hinv : InterruptInvariant layout s)
    (hstep : (interruptSystem layout).step s .enterUser next) :
    InterruptInvariant layout next := by
  obtain ⟨-, hentries, hisUser, huser, hnext⟩ := hstep
  rw [hnext]
  refine ⟨⟨hentries, hisUser, huser⟩, ?_, hinv.suspended, hinv.rsp0⟩
  change Frames layout s.core.memory s.running 0 (s.entries s.running)
  rw [hentries]
  trivial

/-! ### Interrupts -/

/-- What an interrupt leaves: the words of the registers below where the processor began to push,
and the address of the frame as the argument of `interrupt_dispatch`. -/
theorem InterruptState.enter {number : ℕ}
    (hstep : (interruptSystem layout).step s (.interrupt number) next) :
    next.core.memory = pushWords s.core.memory (s.core.entryTop s.tssRsp0)
        (s.core.registers.entryWords layout.symbols number 0#64) ∧
      next.core.registers.stackPointer = (s.entry layout number).frame - 8 ∧
      (s.entry layout number).frame = s.core.entryTop s.tssRsp0 - frameSize ∧
      next.core.registers.cs = 0x08#16 := by
  obtain ⟨hnumber, hroom, rfl⟩ := hstep
  rw [frameSize] at hroom
  have herror : number ∈ errVectors ↔ (none : Option Word).isSome := by
    rw [errVectors]
    simp only [List.mem_cons, List.not_mem_nil, Option.isSome_none, Bool.false_eq_true, or_false,
      iff_false]
    omega
  have henough : frameSize + 8 ≤ s.core.entryTop s.tssRsp0 := by
    rw [frameSize]
    omega
  obtain ⟨hmemory, hstack, hrdi⟩ := enter_spec layout.symbols herror henough
  have hframe : (s.entry layout number).frame = s.core.entryTop s.tssRsp0 - frameSize := hrdi
  exact ⟨hmemory, hstack.trans (by rw [hframe]), hframe, enter_cs ..⟩

omit [DecidableEq Proc] in
/-- An interrupt pushes on the running process's stack, below what is live there. -/
theorem InterruptInvariant.entryTop_le (hinv : InterruptInvariant layout s) :
    s.core.entryTop s.tssRsp0 ≤ layout.limit s.running ∧
      (¬ s.core.registers.UserMode →
        s.core.entryTop s.tssRsp0 ≤ s.core.registers.stackPointer) := by
  rw [Core.entryTop]
  split_ifs with huser
  · obtain ⟨-, hisUser⟩ := hinv.point.user_of_userMode huser
    rw [hinv.rsp0 hisUser]
    have hle := layout.kernelRsp_le s.running hisUser
    exact ⟨(Nat.div_mul_le_self _ _).trans hle, fun hkernel ↦ absurd huser hkernel⟩
  · have hle := hinv.point.le_limit hinv.frames huser
    have haligned : s.core.registers.stackPointer / 16 * 16 ≤ s.core.registers.stackPointer :=
      Nat.div_mul_le_self _ _
    exact ⟨haligned.trans hle, fun _ ↦ haligned⟩

/-- An interrupt changes memory only where it pushes. -/
theorem InterruptState.memory_interrupt {number position : ℕ}
    (hstep : (interruptSystem layout).step s (.interrupt number) next)
    (houtside : position + 184 < s.core.entryTop s.tssRsp0 ∨
      s.core.entryTop s.tssRsp0 ≤ position) :
    next.core.memory position = s.core.memory position := by
  obtain ⟨hmemory, -⟩ := InterruptState.enter hstep
  obtain ⟨-, hroom, -⟩ := hstep
  have hlength : 8 * (s.core.registers.entryWords layout.symbols number 0#64).length = 184 := rfl
  rw [frameSize] at hroom
  rw [hmemory]
  exact pushWords_apply_of_outside (by omega) (by omega)

/-- The words of the frame of an interrupt are those of the registers that were interrupted. -/
theorem InterruptState.words_entered {number : ℕ}
    (hstep : (interruptSystem layout).step s (.interrupt number) next) :
    WordsAt next.core.memory ((s.entry layout number).frame - 8)
      (layout.symbols.returnAddress :: s.core.registers.frameWords number 0#64) := by
  obtain ⟨hmemory, -, hframe, -⟩ := InterruptState.enter hstep
  obtain ⟨-, hroom, -⟩ := hstep
  rw [frameSize] at hframe hroom
  obtain ⟨words, hsame⟩ : ∃ words, words =
    s.core.registers.entryWords layout.symbols number 0#64 := ⟨_, rfl⟩
  have hlength : 8 * words.length = 184 := by rw [hsame]; rfl
  have hwords : WordsAt (pushWords s.core.memory (s.core.entryTop s.tssRsp0) words)
      (s.core.entryTop s.tssRsp0 - 8 * words.length) words.reverse :=
    wordsAt_pushWords (by omega)
  rw [hlength, hsame, ← hmemory, reverse_entryWords] at hwords
  rwa [show (s.entry layout number).frame - 8 = s.core.entryTop s.tssRsp0 - 184 by omega]

/-- The frame of an interrupt has the registers that were interrupted, and `interrupt_dispatch`
takes them from it. -/
theorem InterruptInvariant.entryHolds {number : ℕ} (hinv : InterruptInvariant layout s)
    (hstep : (interruptSystem layout).step s (.interrupt number) next) :
    EntryHolds layout next.core.memory s.running 0 (s.entry layout number) := by
  obtain ⟨-, -, hframe, -⟩ := InterruptState.enter hstep
  have hwords := InterruptState.words_entered hstep
  obtain ⟨hnumber, hroom, hnext⟩ := hstep
  obtain ⟨hlimit, htop⟩ := hinv.entryTop_le
  rw [frameSize] at hroom hframe
  refine ⟨by omega, by rw [frameSize]; omega, fun hkernel ↦ ?_, ?_, ?_, fun hcall ↦ ?_,
    fun _ ↦ rfl, hwords⟩
  · have hle := htop hkernel
    change (s.entry layout number).frame + 176 ≤ s.core.registers.stackPointer
    omega
  · change number < 256
    omega
  · have htail := (wordsAt_cons.mp hwords).2
    have hmemory : (s.entered layout number).memory = next.core.memory := by rw [hnext]; rfl
    rw [show (s.entry layout number).frame - 8 + 8 = (s.entry layout number).frame by omega]
      at htail
    rw [InterruptState.dispatch_entry, hmemory, loadFrame_of_wordsAt htail]
    rfl
  · have hsystem : number = 0x80 := hcall
    rcases hnumber with hirq | ⟨-, hpoint⟩
    · omega
    · exact hpoint

theorem InterruptInvariant.interrupt {number : ℕ} (hinv : InterruptInvariant layout s)
    (hstep : (interruptSystem layout).step s (.interrupt number) next) :
    InterruptInvariant layout next := by
  obtain ⟨-, hstack, -, hcs⟩ := InterruptState.enter hstep
  have hentry := hinv.entryHolds hstep
  obtain ⟨hlimit, htop⟩ := hinv.entryTop_le
  have houtside : ∀ position, ¬ layout.InStack s.running position →
      next.core.memory position = s.core.memory position := by
    intro position hposition
    have hroom := hstep.2.1
    rw [StackLayout.InStack] at hposition
    rw [frameSize] at hroom
    exact InterruptState.memory_interrupt hstep (by omega)
  have hcontext : ∀ position, InContext (layout.context s.running) position →
      next.core.memory position = s.core.memory position :=
    fun position hposition ↦ houtside position (layout.not_inStack (Or.inr hposition))
  have hrest : Frames layout next.core.memory s.running s.point.popped (s.entries s.running) :=
    Frames.congr_above hinv.point hinv.frames htop
      (fun position hge _ ↦ InterruptState.memory_interrupt hstep (Or.inr hge)) hcontext
  have hpoint : PointHolds layout next.core.memory s.running s.core.registers
      (s.entries s.running) s.point := hinv.point.congr fun _ ↦ hcontext
  have hkernel : ¬ next.core.registers.UserMode := by
    rw [Registers.UserMode, hcs]
    decide
  obtain ⟨-, -, rfl⟩ := hstep
  have hentries := InterruptState.entries_interrupt layout s number
  refine ⟨?_, ?_, fun p hp ↦ ?_, hinv.rsp0⟩
  · change OnStack layout s.running _ 0 (layout.ceiling s.running
      ((s.interrupt layout number).entries s.running))
    rw [hentries]
    exact ⟨hkernel, by have hbottom := hentry.bottom_le; omega, hstack.le⟩
  · change Frames layout _ s.running 0 ((s.interrupt layout number).entries s.running)
    rw [hentries]
    exact ⟨hentry, hpoint, hrest⟩
  · rw [show (s.interrupt layout number).entries p = s.entries p from
      Function.update_of_ne hp ..]
    exact hinv.suspended_congr houtside hp

/-! ### Returning -/

/-- The running process has other interrupts in progress. -/
theorem InterruptInvariant.of_setEntries {entries : List (Entry Proc)}
    (hpoint : PointHolds layout s.core.memory s.running s.core.registers entries s.point)
    (hframes : Frames layout s.core.memory s.running s.point.popped entries)
    (hsuspended : ∀ p, p ≠ s.running → Suspended layout s.core.memory p (s.entries p))
    (hrsp0 : layout.IsUser s.running → s.tssRsp0 = layout.kernelRsp s.running) :
    InterruptInvariant layout (s.setEntries entries) := by
  have hentries := s.setEntries_running entries
  refine ⟨?_, ?_, fun p hp ↦ ?_, hrsp0⟩
  · rw [show (s.setEntries entries).running = s.running from rfl, hentries]
    exact hpoint
  · rw [show (s.setEntries entries).running = s.running from rfl, hentries]
    exact hframes
  · rw [s.setEntries_of_ne entries hp]
    exact hsuspended p hp

omit [DecidableEq Proc] in
/-- The result of a system call is stored in its frame. -/
theorem EntryHolds.store_result {entry : Entry Proc} (hentry : EntryHolds layout memory p 0 entry)
    (hcall : entry.number = 0x80) (hnone : entry.result = none) (result : Word) :
    EntryHolds layout (store memory (entry.frame + 8 * 14) result) p 0
      { entry with result := some result } := by
  refine { hentry with result := fun hother ↦ absurd hcall hother, words := ?_ }
  have hbottom := hentry.bottom_le
  have hset := hentry.words.store 15 result
  rw [Entry.returned, hnone, List.drop_zero,
    show entry.frame - 8 + 8 * 0 + 8 * 15 = entry.frame + 8 * 14 by omega] at hset
  exact hset

theorem InterruptInvariant.setResult {result : Word} (hinv : InterruptInvariant layout s)
    (hstep : (interruptSystem layout).step s (.setResult result) next) :
    InterruptInvariant layout next := by
  obtain ⟨entry, rest, hcode, hentries, hsyscall, hnone, rfl⟩ := hstep
  have hpoint := hinv.point
  have hframes := hinv.frames
  rw [hcode, hentries] at hpoint hframes
  obtain ⟨hentry, hbelow, hrest⟩ := hframes
  have hcall := hentry.isSyscall_iff.mp hsyscall
  have hbottom := hentry.bottom_le
  have hlimit := hentry.le_limit
  have hresult := hentry.store_result hcall hnone result
  obtain ⟨memory, hmemory⟩ : ∃ memory, memory =
    store s.core.memory (entry.frame + 8 * 14) result := ⟨_, rfl⟩
  rw [← hmemory] at hresult ⊢
  rw [frameSize] at hlimit
  have hkept : ∀ position, position < entry.frame ∨ entry.frame + 176 ≤ position →
      memory position = s.core.memory position := by
    intro position houtside
    rw [hmemory]
    refine store_apply_of_disjoint _ ?_
    change position < _ ∨ entry.frame + 8 * 14 + 8 ≤ position
    omega
  have houtside : ∀ position, ¬ layout.InStack s.running position →
      memory position = s.core.memory position := by
    intro position hposition
    rw [StackLayout.InStack] at hposition
    exact hkept position (by omega)
  have hcontext : ∀ position, InContext (layout.context s.running) position →
      memory position = s.core.memory position :=
    fun position hposition ↦ houtside position (layout.not_inStack (Or.inr hposition))
  have habove : Frames layout memory s.running entry.point.popped rest :=
    Frames.congr_above hbelow hrest hentry.le_saved
      (fun position hge _ ↦ hkept position (Or.inr hge)) hcontext
  refine InterruptInvariant.of_setEntries ?_ ?_ (fun p ↦ hinv.suspended_congr houtside) hinv.rsp0
  · rw [hcode]
    exact hpoint
  · rw [hcode]
    exact ⟨hresult, hbelow.congr fun _ ↦ hcontext, habove⟩

theorem InterruptInvariant.dispatchReturn (hinv : InterruptInvariant layout s)
    (hstep : (interruptSystem layout).step s .dispatchReturn next) :
    InterruptInvariant layout next := by
  obtain ⟨entry, rest, hcode, hentries, hstack, hresult, rfl⟩ := hstep
  have hpoint := hinv.point
  have hframes := hinv.frames
  rw [hcode, hentries] at hpoint hframes
  obtain ⟨hentry, hrest⟩ := hframes
  have hlimit := hentry.le_limit
  have hfits := layout.limit_lt s.running
  rw [frameSize] at hlimit
  have hexit : ExitHolds s.core.ret.registers entry 0 := by
    refine ⟨hpoint.kernel, ?_, by decide, fun hcall ↦ hresult (hentry.isSyscall_iff.mpr hcall),
      fun r hr ↦ by cases hr⟩
    rw [Core.stackPointer_ret (by omega), hstack]
    rfl
  refine ⟨⟨entry, rest, hentries, hexit⟩, ?_, hinv.suspended, hinv.rsp0⟩
  change Frames layout s.core.memory s.running 1 (s.entries s.running)
  rw [hentries]
  exact ⟨hentry.take 1, hrest⟩

/-- What the instructions of the way out are. -/
theorem isrCommonExit_cases {index : ℕ} {instr : StubInstr}
    (hinstr : isrCommonExit[index]? = some instr) :
    (∃ dst, index < 15 ∧ restoreOrder[index]? = some dst ∧ instr = .pop dst) ∨
      (index = 15 ∧ instr = .addRsp 16#64) ∨ (index = 16 ∧ instr = .iretq) := by
  rw [isrCommonExit, List.getElem?_append, List.length_map,
    show restoreOrder.length = 15 from rfl] at hinstr
  split_ifs at hinstr with hlt
  · rw [List.getElem?_map, Option.map_eq_some_iff] at hinstr
    obtain ⟨dst, hdst, rfl⟩ := hinstr
    exact Or.inl ⟨dst, hlt, hdst, rfl⟩
  · obtain ⟨more, rfl⟩ := Nat.exists_eq_add_of_le (not_lt.mp hlt)
    rw [Nat.add_sub_cancel_left] at hinstr
    match more, hinstr with
    | 0, hinstr => exact Or.inr (Or.inl ⟨rfl, (Option.some.inj hinstr).symm⟩)
    | 1, hinstr => exact Or.inr (Or.inr ⟨rfl, (Option.some.inj hinstr).symm⟩)
    | _ + 2, hinstr => cases hinstr

omit [DecidableEq Proc] in
/-- The words of a frame from the one that the way out takes next. -/
theorem EntryHolds.words_exiting {entry : Entry Proc} {index : ℕ}
    (hentry : EntryHolds layout memory p (1 + index) entry) :
    WordsAt memory (entry.frame - 8 + 8 * (1 + index))
      ((entry.returned.frameWords entry.number 0#64).drop index) := by
  have hwords := hentry.words
  rwa [Nat.add_comm 1, List.drop_succ_cons, Nat.add_comm index] at hwords

omit [DecidableEq Proc] in
/-- Before any word is taken, the frame is there as C code sees it. -/
theorem EntryHolds.loadFrame {entry : Entry Proc} (hentry : EntryHolds layout memory p 0 entry) :
    Arch.loadFrame memory entry.frame = entry.returned.frame entry.number 0#64 := by
  have hbottom := hentry.bottom_le
  have htaken : EntryHolds layout memory p (1 + 0) entry := hentry.take 1
  have hwords := htaken.words_exiting
  rw [List.drop_zero, show entry.frame - 8 + 8 * (1 + 0) = entry.frame by omega] at hwords
  exact loadFrame_of_wordsAt hwords

omit [DecidableEq Proc] in
/-- A register is popped. -/
theorem ExitHolds.pop {core : Core} {entry : Entry Proc} {index : ℕ} {dst : Gpr}
    (hexit : ExitHolds core.registers entry index)
    (hentry : EntryHolds layout core.memory p (1 + index) entry) (hindex : index < 15)
    (hdst : restoreOrder[index]? = some dst) :
    ExitHolds (StubInstr.exec core (.pop dst)).registers entry (index + 1) := by
  have hne : dst ≠ .rsp := ne_of_mem_of_not_mem (List.mem_of_getElem? hdst) (by decide)
  have hlimit := hentry.le_limit
  have hfits := layout.limit_lt p
  have hstack := hexit.stackPointer
  rw [Point.popped, if_pos (by omega)] at hstack
  rw [frameSize] at hlimit
  have hroom : core.registers.stackPointer + 8 < 2 ^ 64 := by omega
  obtain ⟨hrsp, hvalue, hothers⟩ := pop_spec hne hroom
  have hword : (entry.returned.frameWords entry.number 0#64)[index]? =
      some (entry.returned.gpr dst) := by
    rw [Registers.frameWords, List.getElem?_append_left (by simpa [restoreOrder] using hindex),
      List.getElem?_map, hdst]
    rfl
  have htop : core.top = entry.returned.gpr dst := by
    have hload := hentry.words_exiting 0 (entry.returned.gpr dst)
      (by rw [List.getElem?_drop]; exact hword)
    rw [Core.top, hstack]
    exact hload
  refine ⟨hexit.kernel, ?_, by omega, hexit.result, fun r hr ↦ ?_⟩
  · rw [hrsp, hstack, Point.popped, if_pos (by omega)]
    omega
  · rw [List.take_add_one, hdst, List.mem_append] at hr
    by_cases hsame : r = dst
    · rw [hsame, hvalue, htop]
    · have hbefore : r ∈ restoreOrder.take index :=
        hr.resolve_right fun hlast ↦ hsame (List.mem_singleton.mp hlast)
      have hrest : r ≠ .rsp := ne_of_mem_of_not_mem (List.mem_of_mem_take hbefore) (by decide)
      rw [hothers r hrest hsame]
      exact hexit.gpr r hbefore

omit [DecidableEq Proc] in
/-- The number and the error code are skipped. -/
theorem ExitHolds.addRsp {core : Core} {entry : Entry Proc}
    (hexit : ExitHolds core.registers entry 15)
    (hfits : core.registers.stackPointer + 16 < 2 ^ 64) :
    ExitHolds (StubInstr.exec core (.addRsp 16#64)).registers entry 16 := by
  have hstack : core.registers.stackPointer = entry.frame - 8 + 8 * 16 := hexit.stackPointer
  refine ⟨hexit.kernel, ?_, le_refl 16, hexit.result, fun r hr ↦ ?_⟩
  · have hrsp : (StubInstr.exec core (.addRsp 16#64)).registers.stackPointer =
        core.registers.stackPointer + 16 := core.registers.stackPointer_add hfits
    change _ = entry.frame - 8 + 8 * 18
    omega
  · have hne : r ≠ .rsp := ne_of_mem_of_not_mem (List.mem_of_mem_take hr) (by decide)
    change (core.registers.setGpr .rsp _).gpr r = _
    rw [Registers.setGpr_gpr_of_ne _ _ hne]
    exact hexit.gpr r hr

omit [DecidableEq Proc] in
/-- `iretq` continues with the registers to return to. -/
theorem ExitHolds.iretq {core : Core} {entry : Entry Proc}
    (hexit : ExitHolds core.registers entry 16)
    (hentry : EntryHolds layout core.memory p 18 entry) :
    (StubInstr.iretq.exec core).registers = entry.returned := by
  have hwords : WordsAt core.memory core.registers.stackPointer entry.returned.iretWords := by
    rw [hexit.stackPointer]
    exact hentry.words
  refine iretq_registers hwords fun g hg ↦ hexit.gpr g ?_
  cases g with
  | rsp => exact absurd rfl hg
  | _ => decide

theorem InterruptInvariant.exit (hinv : InterruptInvariant layout s)
    (hstep : (interruptSystem layout).step s .exit next) : InterruptInvariant layout next := by
  obtain ⟨index, instr, hexiting, hlt, hinstr, rfl⟩ := hstep
  have hpoint := hinv.point
  have hframes := hinv.frames
  rw [hexiting] at hpoint hframes
  obtain ⟨entry, rest, hentries, hexit⟩ := hpoint
  rw [hentries] at hframes
  obtain ⟨hentry, hrest⟩ := hframes
  rw [Point.popped, if_pos hlt] at hentry
  have hlimit := hentry.le_limit
  have hfits := layout.limit_lt s.running
  have hstack := hexit.stackPointer
  rw [Point.popped, if_pos hlt] at hstack
  rw [frameSize] at hlimit
  rcases isrCommonExit_cases hinstr with ⟨dst, hpop, hdst, rfl⟩ | ⟨rfl, rfl⟩ | ⟨rfl, rfl⟩
  · refine ⟨⟨entry, rest, hentries, hexit.pop hentry hpop hdst⟩, ?_, hinv.suspended, hinv.rsp0⟩
    change Frames layout s.core.memory s.running (1 + if index + 1 < 16 then index + 1 else 17)
      (s.entries s.running)
    rw [if_pos (by omega), hentries]
    exact ⟨hentry.take 1, hrest⟩
  · refine ⟨⟨entry, rest, hentries, hexit.addRsp (by omega)⟩, ?_, hinv.suspended, hinv.rsp0⟩
    change Frames layout s.core.memory s.running 18 (s.entries s.running)
    rw [hentries]
    exact ⟨hentry.take 2, hrest⟩
  · exact absurd hlt (lt_irrefl 16)

/-- An interrupt that returns does so with the registers it is to return to, and with a result
exactly when it is a system call. -/
theorem InterruptInvariant.iretq_returns {entry : Entry Proc} {rest : List (Entry Proc)}
    (hinv : InterruptInvariant layout s) (hentries : s.entries s.running = entry :: rest)
    (hstep : (interruptSystem layout).step s .iretq next) :
    next.core.registers = entry.returned ∧ (entry.number = 0x80 → entry.result.isSome) ∧
      (entry.number ≠ 0x80 → entry.result = none) := by
  obtain ⟨-, -, hexiting, -, rfl⟩ := hstep
  have hpoint := hinv.point
  have hframes := hinv.frames
  rw [hexiting, hentries] at hpoint hframes
  obtain ⟨top, others, hsame, hexit⟩ := hpoint
  obtain ⟨rfl, rfl⟩ := List.cons.inj hsame
  exact ⟨hexit.iretq hframes.1, hexit.result, hframes.1.result⟩

theorem InterruptInvariant.iretq (hinv : InterruptInvariant layout s)
    (hstep : (interruptSystem layout).step s .iretq next) : InterruptInvariant layout next := by
  have hreturns : ∀ entry rest, s.entries s.running = entry :: rest →
      next.core.registers = entry.returned :=
    fun entry rest hentries ↦ (hinv.iretq_returns hentries hstep).1
  obtain ⟨entry, rest, hexiting, hentries, rfl⟩ := hstep
  have hregisters := hreturns entry rest hentries
  have hframes := hinv.frames
  rw [hentries] at hframes
  obtain ⟨hentry, hpoint, hrest⟩ := hframes
  refine InterruptInvariant.of_setEntries ?_ hrest hinv.suspended hinv.rsp0
  rw [show (StubInstr.iretq.exec s.core).registers = entry.returned from hregisters]
  exact hentry.pointHolds_returned hpoint

end Steps

end Colix.Arch
