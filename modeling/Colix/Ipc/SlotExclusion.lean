import Colix.Ipc.IpcRun
import Colix.Ipc.Wakeup

/-!
# Who holds a pool slot

`msg_alloc` tests `msg_used` and sets it in two steps, and the timer may switch processes between
them. As long as no process sets the mark of a slot that is in use by then, each slot is held by
one send in progress, or lies in one queue, or is free: `SlotInvariant`. The next step keeps the
slots exclusive exactly when it sets no such mark.
-/

set_option autoImplicit false
set_option relaxedAutoImplicit false

namespace Colix.Ipc

open Foundation Proc

/-! ### Holders -/

/-- A send in progress holds the slot it got from `msg_alloc` until the slot is queued. -/
def Pc.holds (m : MsgIndex) : Pc → Bool
  | .fill _ _ slot _ => slot == m
  | _ => false

/-- The process a send in progress is to. -/
def Pc.target : Pc → Option ProcIndex
  | .checkLen _ target => some target
  | .allocTest _ target _ => some target
  | .allocSet _ target _ => some target
  | .fill _ target _ _ => some target
  | _ => none

/-- The slots in use that no send in progress holds. -/
def queuedMark (s : PreemptState) (m : MsgIndex) : Bool :=
  s.kernel.msgUsed m && decide (∀ p, (s.pcs p).holds m = false)

/-- No slot is held by two sends in progress, or by a send in progress and a queue, or lies in two
queues. -/
structure SlotsExclusive (s : PreemptState) : Prop where
  sends : ∀ p q m, (s.pcs p).holds m = true → (s.pcs q).holds m = true → p = q
  send_queue : ∀ p q m, (s.pcs p).holds m = true → m ∉ queueSlots s.kernel q
  queues : ∀ q r m, m ∈ queueSlots s.kernel q → m ∈ queueSlots s.kernel r → q = r

/-- The step does not set the mark of a slot that is in use. -/
def SetsFree (s : PreemptState) (event : PreemptEvent) : Prop :=
  ∀ p args target m, event = .statement → s.kernel.currentProc = some p →
    s.pcs p = .allocSet args target m → s.kernel.msgUsed m = false

/-- A step leaves the messages in each queue as they are, but for one that the running process's
send appends, and the first one, which the queue's own process receives. -/
def MessagesKept (s after : PreemptState) : Prop :=
  ∀ q, queuedMessages after.kernel q = queuedMessages s.kernel q ∨
    (∃ p m, s.kernel.currentProc = some p ∧ (s.pcs p).holds m = true ∧
      queuedMessages after.kernel q =
        queuedMessages s.kernel q ++ [heldMessage (s.kernel.msgPool m)]) ∨
    ∃ message, s.kernel.currentProc = some q ∧ (s.pcs q).inRecv = true ∧
      queuedMessages s.kernel q = message :: queuedMessages after.kernel q

variable {s after : PreemptState} {p q current : ProcIndex} {m : MsgIndex} {k : Kernel}
  {pcs : ProcIndex → Pc} {pc : Pc} {queue : ProcIndex → List MsgIndex}

/-- The mark that a place sets is clear. -/
def Pc.setsFree (used : MsgIndex → Bool) : Pc → Bool
  | .allocSet _ _ m => !used m
  | _ => true

/-- `SetsFree` as a computation. -/
def setsFree (s : PreemptState) (event : PreemptEvent) : Bool :=
  match event with
  | .statement => s.kernel.currentProc.all fun p ↦ (s.pcs p).setsFree s.kernel.msgUsed
  | _ => true

theorem setsFree_iff {event : PreemptEvent} : setsFree s event = true ↔ SetsFree s event := by
  constructor
  · rintro hfree p args target m rfl hcurrent hpc
    rw [setsFree, hcurrent, Option.all_some, hpc] at hfree
    exact Bool.not_eq_true' _ ▸ hfree
  · intro hfree
    cases event with
    | tick => rfl
    | own call => rfl
    | statement =>
      rw [setsFree]
      cases hcurrent : s.kernel.currentProc with
      | none => rfl
      | some p =>
        rw [Option.all_some]
        cases hpc : s.pcs p with
        | allocSet args target m =>
          rw [Pc.setsFree, hfree p args target m rfl hcurrent hpc]
          rfl
        | _ => rfl

instance (s : PreemptState) (event : PreemptEvent) : Decidable (SetsFree s event) :=
  decidable_of_iff _ setsFree_iff

theorem Pc.holds_fill {args : SendArgs} {target : ProcIndex} {slot : MsgIndex} {stage : FillStage} :
    (Pc.fill args target slot stage).holds m = true ↔ slot = m :=
  beq_iff_eq

theorem queuedMark_iff : queuedMark s m = true ↔
    s.kernel.msgUsed m = true ∧ ∀ p, (s.pcs p).holds m = false := by
  rw [queuedMark, Bool.and_eq_true, decide_eq_true_eq]

/-- The mark depends on the slot's mark in the pool and its holders. -/
theorem queuedMark_congr (hused : after.kernel.msgUsed m = s.kernel.msgUsed m)
    (hholds : ∀ p, (after.pcs p).holds m = (s.pcs p).holds m) :
    queuedMark after m = queuedMark s m := by
  simp only [queuedMark, hused, hholds]

theorem queuedMark_of_held (hheld : (s.pcs p).holds m = true) : queuedMark s m = false := by
  by_contra hmark
  have hnone := (queuedMark_iff.mp (Bool.not_eq_false _ ▸ hmark)).2 p
  rw [hheld] at hnone
  cases hnone

theorem queuedMark_of_unused (hunused : s.kernel.msgUsed m = false) : queuedMark s m = false := by
  rw [queuedMark, hunused, Bool.false_and]

/-! ### The invariant -/

/-- The slots in use are those held by one send in progress and those in one queue. -/
structure SlotInvariant (s : PreemptState) : Prop where
  current : CurrentInUse s.kernel
  targets_used : ∀ p target, (s.pcs p).target = some target →
    (s.kernel.procTable target).state ≠ .unused
  unused_empty : ∀ q, (s.kernel.procTable q).state = .unused → queueHead s.kernel q = none
  held_used : ∀ p m, (s.pcs p).holds m = true → s.kernel.msgUsed m = true
  held_unique : ∀ p q m, (s.pcs p).holds m = true → (s.pcs q).holds m = true → p = q
  queues : SlotQueues s.kernel (queuedMark s) (queueSlots s.kernel)

/-- A held slot is in no queue. -/
theorem SlotInvariant.not_queued (hinv : SlotInvariant s) (hheld : (s.pcs p).holds m = true)
    (q : ProcIndex) : m ∉ queueSlots s.kernel q := by
  intro hmem
  have hmark := (hinv.queues.used_iff m).mpr ⟨q, hmem⟩
  rw [queuedMark_of_held hheld] at hmark
  cases hmark

theorem SlotInvariant.exclusive (hinv : SlotInvariant s) : SlotsExclusive s :=
  ⟨hinv.held_unique, fun _ q _ hheld ↦ hinv.not_queued hheld q, hinv.queues.disjoint⟩

/-! ### What a step can do to the slots -/

/-- All that a step can do: leave the pool and the mailboxes alone, create a process, set the mark
of a slot, write a held slot, queue it, or receive. -/
inductive SlotEffect (s : PreemptState) (event : PreemptEvent) (after : PreemptState) : Prop
  | quiet (hkept : ProcessesKept s.kernel after.kernel)
      (hholds : ∀ p m, (after.pcs p).holds m = (s.pcs p).holds m)
      (htargets : ∀ p target, (after.pcs p).target = some target →
        (s.pcs p).target = some target ∨ (s.kernel.procTable target).state ≠ .unused)
  | added (p : ProcIndex) (hadded : ProcessAdded s.kernel after.kernel p)
      (hpcs : after.pcs = s.pcs)
  | set (p : ProcIndex) (args : SendArgs) (target : ProcIndex) (m : MsgIndex)
      (hevent : event = .statement) (hcurrent : s.kernel.currentProc = some p)
      (hpc : s.pcs p = .allocSet args target m)
      (hafter : after = ⟨{ s.kernel with msgUsed := Function.update s.kernel.msgUsed m true },
        Function.update s.pcs p (.fill args target m .next)⟩)
  | write (p : ProcIndex) (args : SendArgs) (target : ProcIndex) (m : MsgIndex)
      (stage later : FillStage) (f : IpcMessage → IpcMessage)
      (hcurrent : s.kernel.currentProc = some p) (hpc : s.pcs p = .fill args target m stage)
      (hafter : after = ⟨setMessage s.kernel m f,
        Function.update s.pcs p (.fill args target m later)⟩)
  | queue (p : ProcIndex) (args : SendArgs) (target : ProcIndex) (m : MsgIndex)
      (hcurrent : s.kernel.currentProc = some p) (hpc : s.pcs p = .fill args target m .queue)
      (hafter : after = ⟨queueAndWake s.kernel target m, Function.update s.pcs p .outside⟩)
  | receive (p : ProcIndex) (m : MsgIndex) (out : IpcMessage)
      (hcurrent : s.kernel.currentProc = some p) (hpc : s.pcs p = .recv out)
      (hhead : (s.kernel.procTable p).msgQueue = some m)
      (hafter : after = ⟨(dequeue s.kernel p m out).2, Function.update s.pcs p .outside⟩)

variable {event : PreemptEvent} {entryPoints : EntryPoints} {idle : ProcIndex}

/-- A step that leaves the pool and the mailboxes alone and moves the running process to a place
that holds what the place before did. -/
theorem SlotEffect.moved (hkept : ProcessesKept s.kernel k)
    (hholds : ∀ m, pc.holds m = (s.pcs p).holds m)
    (htarget : ∀ target, pc.target = some target →
      (s.pcs p).target = some target ∨ (s.kernel.procTable target).state ≠ .unused) :
    SlotEffect s event ⟨k, Function.update s.pcs p pc⟩ := by
  refine .quiet hkept (fun q m ↦ ?_) fun q target ↦ ?_
  · dsimp only
    by_cases heq : q = p
    · rw [heq, Function.update_self]
      exact hholds m
    · rw [Function.update_of_ne heq]
  · dsimp only
    by_cases heq : q = p
    · rw [heq, Function.update_self]
      exact htarget target
    · rw [Function.update_of_ne heq]
      exact Or.inl

/-- The statements of `ipc_send` on the slot it holds. -/
theorem slotEffect_fill (hinuse : CurrentInUse s.kernel) {args : SendArgs} {target : ProcIndex}
    {stage : FillStage} (hcurrent : s.kernel.currentProc = some p)
    (hpc : s.pcs p = .fill args target m stage) : SlotEffect s event (s.execute p) := by
  rw [PreemptState.execute, hpc, statement]
  rcases fillStep_cases s.kernel args target m stage with ⟨f, later, heq⟩ | ⟨later, heq⟩ |
    ⟨rfl, heq⟩
  · rw [heq]
    exact .write p args target m stage later f hcurrent hpc rfl
  · rw [heq]
    refine .moved (ProcessesKept.refl hinuse) (fun slot ↦ ?_) fun other hother ↦ Or.inl ?_
    · rw [hpc]
      rfl
    · rw [hpc]
      exact hother
  · rw [heq]
    exact .queue p args target m hcurrent hpc rfl

/-- The statements of `proc_sleep` leave the pool and the mailboxes alone. -/
theorem processesKept_sleepStep (hinuse : CurrentInUse k) (hcurrent : k.currentProc = some p)
    (caller : SleepCaller) (stage : SleepStage) :
    ProcessesKept k (sleepStep k p caller stage).1 := by
  have hused := hinuse p hcurrent
  cases stage with
  | store ms =>
    dsimp only [sleepStep]
    exact ProcessesKept.modify hinuse p _ (fun _ ↦ rfl) hused hused
  | atLeastOne =>
    dsimp only [sleepStep]
    split_ifs
    · exact ProcessesKept.modify hinuse p _ (fun _ ↦ rfl) hused hused
    · exact ProcessesKept.refl hinuse
  | mark =>
    dsimp only [sleepStep]
    exact ProcessesKept.modify hinuse p _ (fun _ ↦ rfl) hused fun h ↦ ProcState.noConfusion h
  | schedule => exact processesKept_schedule hinuse
  | returned => exact ProcessesKept.refl hinuse

/-- A statement of the running process. -/
theorem slotEffect_statement (hinuse : CurrentInUse s.kernel)
    (hcurrent : s.kernel.currentProc = some p) : SlotEffect s .statement (s.execute p) := by
  have hrefl := ProcessesKept.refl hinuse
  cases hpc : s.pcs p with
  | outside =>
    rw [PreemptState.execute, hpc]
    refine .moved hrefl (fun m ↦ ?_) (fun target htarget ↦ by cases htarget)
    rw [hpc]
    rfl
  | find args i =>
    rw [PreemptState.execute, hpc]
    refine .moved hrefl (fun m ↦ ?_) fun target htarget ↦ Or.inr ?_
    · rw [hpc, statement, findStep]
      split_ifs <;> rfl
    · rw [statement, findStep] at htarget
      split_ifs at htarget with hlt hfound
      · cases htarget
        exact hfound.1
      · cases htarget
      · cases htarget
  | checkLen args target =>
    rw [PreemptState.execute, hpc]
    refine .moved hrefl (fun m ↦ ?_) fun other hother ↦ Or.inl ?_
    · rw [hpc, statement]
      dsimp only
      split_ifs <;> rfl
    · rw [statement] at hother
      dsimp only at hother
      rw [hpc]
      split_ifs at hother
      · cases hother
      · exact hother
  | allocTest args target i =>
    rw [PreemptState.execute, hpc]
    refine .moved hrefl (fun m ↦ ?_) fun other hother ↦ Or.inl ?_
    · rw [hpc, statement, allocTestStep]
      split_ifs <;> rfl
    · rw [statement, allocTestStep] at hother
      rw [hpc]
      split_ifs at hother
      · exact hother
      · exact hother
      · cases hother
  | allocSet args target m =>
    rw [PreemptState.execute, hpc]
    exact .set p args target m rfl hcurrent hpc rfl
  | fill args target m stage => exact slotEffect_fill hinuse hcurrent hpc
  | recv out =>
    rw [PreemptState.execute, hpc, statement]
    cases hhead : (s.kernel.procTable p).msgQueue with
    | some m => exact .receive p m out hcurrent hpc hhead rfl
    | none =>
      refine .moved hrefl (fun m ↦ ?_) (fun target htarget ↦ by cases htarget)
      rw [hpc]
      rfl
  | sleep stage caller =>
    rw [PreemptState.execute, hpc, statement]
    have hplace : ∀ m, (sleepStep s.kernel p caller stage).2.holds m = false ∧
        (sleepStep s.kernel p caller stage).2.target = none := by
      intro m
      cases stage <;> try exact ⟨rfl, rfl⟩
      cases caller <;> exact ⟨rfl, rfl⟩
    refine .moved (processesKept_sleepStep hinuse hcurrent caller stage) (fun m ↦ ?_)
      fun target htarget ↦ ?_
    · rw [hpc, (hplace m).1]
      rfl
    · rw [(hplace 0).2] at htarget
      cases htarget

/-- A call of the running process's own code. -/
theorem slotEffect_own (hinuse : CurrentInUse s.kernel)
    (houtside : s.pcs p = .outside) (call : OwnCall) :
    SlotEffect s event (call.perform entryPoints s p) := by
  have hrefl := ProcessesKept.refl hinuse
  have henter : ∀ pc, (∀ m, pc.holds m = false) → pc.target = none →
      SlotEffect s event (s.enter p pc) := by
    intro pc hholds htarget
    refine .moved hrefl (fun m ↦ ?_) fun target hsome ↦ ?_
    · rw [houtside, hholds]
      rfl
    · rw [htarget] at hsome
      cases hsome
  have hcreated : ∀ k, k = s.kernel ∨ (∃ q, ProcessAdded s.kernel k q) →
      SlotEffect s event { s with kernel := k } := by
    rintro k (rfl | ⟨q, hadded⟩)
    · exact .quiet hrefl (fun _ _ ↦ rfl) fun _ _ ↦ Or.inl
    · exact .added q hadded rfl
  cases call with
  | send args => exact henter _ (fun _ ↦ rfl) rfl
  | recv out => exact henter _ (fun _ ↦ rfl) rfl
  | sleep ms => exact henter _ (fun _ ↦ rfl) rfl
  | yield => exact .quiet (processesKept_schedule hinuse) (fun _ _ ↦ rfl) fun _ _ ↦ Or.inl
  | exit code => exact .quiet (processesKept_procExit hinuse code) (fun _ _ ↦ rfl) fun _ _ ↦ Or.inl
  | create kstack name entry =>
    exact hcreated _ (procCreate_creates entryPoints kstack name entry _).added
  | createElf pages entry =>
    exact hcreated _ (procCreateElf_creates entryPoints pages entry _).added

/-- Every step. -/
theorem slotEffect_of_step (hinuse : CurrentInUse s.kernel)
    (hstep : (preemptSystem entryPoints idle).step s event after) : SlotEffect s event after := by
  rcases preemptStep_cases hstep with ⟨-, rfl⟩ | ⟨p, hp, hcase⟩
  · exact .quiet (processesKept_timerInterrupt hinuse) (fun _ _ ↦ rfl) fun _ _ ↦ Or.inl
  · rcases hcase with ⟨rfl, rfl⟩ | ⟨call, -, houtside, -, rfl⟩
    · exact slotEffect_statement hinuse hp
    · exact slotEffect_own hinuse houtside call

/-! ### Steps -/

/-- The queues a state has are those its pointers spell out. -/
theorem SlotQueues.spelled {queued : MsgIndex → Bool} {queue : ProcIndex → List MsgIndex}
    (hqueues : SlotQueues k queued queue) : SlotQueues k queued (queueSlots k) := by
  rwa [hqueues.eq_queueSlots]

theorem SlotInvariant.quiet (hinv : SlotInvariant s) (hkept : ProcessesKept s.kernel after.kernel)
    (hholds : ∀ p m, (after.pcs p).holds m = (s.pcs p).holds m)
    (htargets : ∀ p target, (after.pcs p).target = some target →
      (s.pcs p).target = some target ∨ (s.kernel.procTable target).state ≠ .unused) :
    SlotInvariant after where
  current := hkept.current
  targets_used p target htarget := by
    rw [ne_eq, hkept.unused_iff]
    exact (htargets p target htarget).elim (hinv.targets_used p target) id
  unused_empty q hq := by
    rw [queueHead, msgQueue_of_kept hkept]
    exact hinv.unused_empty q ((hkept.unused_iff q).mp hq)
  held_used p m hheld := by
    rw [hkept.msgUsed_eq]
    exact hinv.held_used p m ((hholds p m).symm.trans hheld)
  held_unique p q m hp hq :=
    hinv.held_unique p q m ((hholds p m).symm.trans hp) ((hholds q m).symm.trans hq)
  queues := by
    have hmark : queuedMark after = queuedMark s := funext fun m ↦
      queuedMark_congr (congrFun hkept.msgUsed_eq m) fun p ↦ hholds p m
    rw [hmark]
    exact (hinv.queues.kept hkept).spelled

theorem SlotInvariant.added (hinv : SlotInvariant s) (hadded : ProcessAdded s.kernel k p) :
    SlotInvariant { s with kernel := k } := by
  have hcase : ∀ i, i = p ∨ i ≠ p ∧ k.procTable i = s.kernel.procTable i := fun i ↦
    or_iff_not_imp_left.mpr fun hne ↦ ⟨hne, hadded.procTable_of_ne i hne⟩
  have hused : ∀ i, (s.kernel.procTable i).state ≠ .unused → (k.procTable i).state ≠ .unused := by
    intro i hi
    rcases hcase i with rfl | ⟨-, hsame⟩
    · rw [hadded.used_after]
      exact ProcState.noConfusion
    · rwa [hsame]
  refine ⟨fun i hi ↦ ?_, fun q target htarget ↦ hused target (hinv.targets_used q target htarget),
    fun q hq ↦ ?_, fun q m hheld ↦ ?_, hinv.held_unique, ?_⟩
  · exact hused i (hinv.current i (hadded.currentProc_eq.symm.trans hi))
  · dsimp only at hq ⊢
    rcases hcase q with rfl | ⟨-, hsame⟩
    · rw [hadded.used_after] at hq
      cases hq
    · rw [hsame] at hq
      rw [queueHead, hsame]
      exact hinv.unused_empty q hq
  · dsimp only
    rw [hadded.msgUsed_eq]
    exact hinv.held_used q m hheld
  · have hmark : queuedMark ⟨k, s.pcs⟩ = queuedMark s := funext fun m ↦
      queuedMark_congr (congrFun hadded.msgUsed_eq m) fun _ ↦ rfl
    rw [hmark]
    exact (hinv.queues.added hadded (hinv.unused_empty p hadded.unused_before)).spelled

/-- Slots the running process holds when only it moves. -/
theorem holds_update (pcs : ProcIndex → Pc) (p q : ProcIndex) (pc : Pc) (m : MsgIndex) :
    (Function.update pcs p pc q).holds m = if q = p then pc.holds m else (pcs q).holds m := by
  by_cases heq : q = p
  · rw [heq, Function.update_self, if_pos rfl]
  · rw [Function.update_of_ne heq, if_neg heq]

theorem target_update {target : ProcIndex}
    (htarget : (Function.update pcs p pc q).target = some target) :
    q = p ∧ pc.target = some target ∨ (pcs q).target = some target := by
  by_cases heq : q = p
  · rw [heq, Function.update_self] at htarget
    exact Or.inl ⟨heq, htarget⟩
  · rw [Function.update_of_ne heq] at htarget
    exact Or.inr htarget

/-- A step that moves only the running process, what it holds given. -/
theorem SlotInvariant.moved (queue : ProcIndex → List MsgIndex) (hinv : SlotInvariant s)
    (hstates : QuietStep s.kernel k)
    (hheads : ∀ q, (s.kernel.procTable q).state = .unused → queueHead k q = queueHead s.kernel q)
    (htarget : ∀ target, pc.target = some target → (s.pcs p).target = some target)
    (hused : ∀ q m, (Function.update s.pcs p pc q).holds m = true → k.msgUsed m = true)
    (hfree : ∀ q m, q ≠ p → pc.holds m = true → (s.pcs q).holds m = false)
    (hqueues : SlotQueues k (queuedMark ⟨k, Function.update s.pcs p pc⟩) queue) :
    SlotInvariant ⟨k, Function.update s.pcs p pc⟩ where
  current i hi h :=
    hinv.current i (hstates.states.currentProc_eq.symm.trans hi) (hstates.unused i h)
  targets_used q target hq h := by
    refine hinv.targets_used q target ?_ (hstates.unused target h)
    rcases target_update hq with ⟨rfl, hpc⟩ | hother
    · exact htarget target hpc
    · exact hother
  unused_empty q hq := by
    have hbefore := hstates.unused q hq
    exact (hheads q hbefore).trans (hinv.unused_empty q hbefore)
  held_used := hused
  held_unique q r m hq hr := by
    rw [holds_update] at hq hr
    split_ifs at hq hr with hqp hrp hrp
    · rw [hqp, hrp]
    · rw [hfree r m hrp hq] at hr
      cases hr
    · rw [hfree q m hqp hr] at hq
      cases hq
    · exact hinv.held_unique q r m hq hr
  queues := hqueues.spelled

/-- Setting the mark of a slot that is not in use. -/
theorem SlotInvariant.set (hinv : SlotInvariant s) {args : SendArgs} {target : ProcIndex}
    (hpc : s.pcs p = .allocSet args target m) (hfree : s.kernel.msgUsed m = false) :
    SlotInvariant ⟨{ s.kernel with msgUsed := Function.update s.kernel.msgUsed m true },
      Function.update s.pcs p (.fill args target m .next)⟩ := by
  have hnone : ∀ q, (s.pcs q).holds m = false := by
    intro q
    by_contra hheld
    rw [hinv.held_used q m (Bool.not_eq_false _ ▸ hheld)] at hfree
    cases hfree
  have hquiet : QuietStep s.kernel
      { s.kernel with msgUsed := Function.update s.kernel.msgUsed m true } :=
    QuietStep.of_eq rfl (fun _ ↦ rfl) (fun _ ↦ rfl) fun _ ↦ rfl
  refine hinv.moved (queueSlots s.kernel) hquiet (fun _ _ ↦ rfl) (fun other hother ↦ ?_)
    (fun q slot hheld ↦ ?_) (fun q slot _ hheld ↦ ?_) ?_
  · rw [hpc]
    exact hother
  · dsimp only
    by_cases hslot : slot = m
    · rw [hslot, Function.update_self]
    · rw [Function.update_of_ne hslot]
      rw [holds_update] at hheld
      split_ifs at hheld with hqp
      · exact absurd (Pc.holds_fill.mp hheld).symm hslot
      · exact hinv.held_used q slot hheld
  · rw [← Pc.holds_fill.mp hheld]
    exact hnone q
  · have hmark : queuedMark ⟨{ s.kernel with msgUsed := Function.update s.kernel.msgUsed m true },
        Function.update s.pcs p (.fill args target m .next)⟩ = queuedMark s := by
      funext slot
      by_cases hslot : slot = m
      · rw [hslot, queuedMark_of_unused hfree, queuedMark_of_held (p := p)]
        rw [holds_update, if_pos rfl]
        exact Pc.holds_fill.mpr rfl
      · refine queuedMark_congr (Function.update_of_ne hslot ..) fun q ↦ ?_
        rw [holds_update]
        split_ifs with hqp
        · rw [hqp, hpc]
          exact beq_false_of_ne (Ne.symm hslot)
        · rfl
    rw [hmark]
    exact hinv.queues

/-- Writing a held slot. -/
theorem SlotInvariant.write (hinv : SlotInvariant s) {args : SendArgs} {target : ProcIndex}
    {stage later : FillStage} (f : IpcMessage → IpcMessage)
    (hpc : s.pcs p = .fill args target m stage) :
    SlotInvariant ⟨setMessage s.kernel m f,
      Function.update s.pcs p (.fill args target m later)⟩ := by
  have hheld : (s.pcs p).holds m = true := by
    rw [hpc]
    exact Pc.holds_fill.mpr rfl
  have hholds : ∀ q slot, (Function.update s.pcs p (.fill args target m later) q).holds slot =
      (s.pcs q).holds slot := by
    intro q slot
    rw [holds_update]
    split_ifs with hqp
    · rw [hqp, hpc]
      rfl
    · rfl
  refine hinv.moved (queueSlots s.kernel) (quietStep_setMessage s.kernel m f) (fun _ _ ↦ rfl)
    (fun other hother ↦ ?_) (fun q slot h ↦ ?_) (fun q slot hne h ↦ ?_) ?_
  · rw [hpc]
    exact hother
  · exact hinv.held_used q slot ((hholds q slot).symm.trans h)
  · by_contra hother
    refine hne (hinv.held_unique q p slot (Bool.not_eq_false _ ▸ hother) ?_)
    rw [hpc]
    exact h
  · have hmark : queuedMark ⟨setMessage s.kernel m f,
        Function.update s.pcs p (.fill args target m later)⟩ = queuedMark s :=
      funext fun slot ↦ queuedMark_congr rfl fun q ↦ hholds q slot
    rw [hmark]
    exact hinv.queues.setMessage (queuedMark_of_held hheld) f

/-- The queues after a held slot is queued and its target woken. -/
theorem SlotInvariant.queuesQueued (hinv : SlotInvariant s) (hheld : (s.pcs p).holds m = true)
    (target : ProcIndex) : SlotQueues (queueAndWake s.kernel target m)
      (Function.update (queuedMark s) m true)
      (Function.update (queueSlots s.kernel) target (queueSlots s.kernel target ++ [m])) :=
  (hinv.queues.enqueue target (queuedMark_of_held hheld)).congr
    (procWakeup_frame (enqueue s.kernel target m) target).1
    (procWakeup_field Process.msgQueue (fun _ _ ↦ rfl) _ _)
    (procWakeup_field Process.msgTail (fun _ _ ↦ rfl) _ _)

/-- Queueing a held slot. -/
theorem SlotInvariant.queued (hinv : SlotInvariant s) {args : SendArgs} {target : ProcIndex}
    (hpc : s.pcs p = .fill args target m .queue) :
    SlotInvariant ⟨queueAndWake s.kernel target m, Function.update s.pcs p .outside⟩ := by
  have hheld : (s.pcs p).holds m = true := by
    rw [hpc]
    exact Pc.holds_fill.mpr rfl
  have htarget : (s.kernel.procTable target).state ≠ .unused := by
    refine hinv.targets_used p target ?_
    rw [hpc]
    rfl
  have hquiet := quietStep_queueAndWake s.kernel target m
  have hused : (queueAndWake s.kernel target m).msgUsed = s.kernel.msgUsed :=
    (procWakeup_frame _ target).2.1.trans (enqueue_frame s.kernel target m).1
  refine hinv.moved
    (Function.update (queueSlots s.kernel) target (queueSlots s.kernel target ++ [m]))
    hquiet (fun q hq ↦ ?_) nofun (fun q slot h ↦ ?_) nofun ?_
  · have hne : q ≠ target := fun heq ↦ htarget (heq ▸ hq)
    refine (procWakeup_field Process.msgQueue (fun _ _ ↦ rfl) _ target q).trans ?_
    exact (enqueue_msgQueue s.kernel target q m).trans (if_neg fun h ↦ hne h.1)
  · rw [hused]
    rw [holds_update] at h
    split_ifs at h with hqp
    · cases h
    · exact hinv.held_used q slot h
  · have hmark : queuedMark ⟨queueAndWake s.kernel target m, Function.update s.pcs p .outside⟩ =
        Function.update (queuedMark s) m true := by
      funext slot
      by_cases hslot : slot = m
      · rw [hslot, Function.update_self, queuedMark_iff]
        refine ⟨(congrFun hused m).trans (hinv.held_used p m hheld), fun q ↦ ?_⟩
        rw [holds_update]
        split_ifs with hqp
        · rfl
        · by_contra hother
          exact hqp (hinv.held_unique q p m (Bool.not_eq_false _ ▸ hother) hheld)
      · rw [Function.update_of_ne hslot]
        refine queuedMark_congr (congrFun hused slot) fun q ↦ ?_
        rw [holds_update]
        split_ifs with hqp
        · rw [hqp, hpc]
          exact (beq_false_of_ne (Ne.symm hslot)).symm
        · rfl
    rw [hmark]
    exact hinv.queuesQueued hheld target

/-- Receiving. -/
theorem SlotInvariant.received (hinv : SlotInvariant s) {out : IpcMessage}
    (hcurrent : s.kernel.currentProc = some p) (hpc : s.pcs p = .recv out)
    (hhead : (s.kernel.procTable p).msgQueue = some m) :
    SlotInvariant ⟨(dequeue s.kernel p m out).2, Function.update s.pcs p .outside⟩ := by
  obtain ⟨rest, hqueue⟩ := hinv.queues.exists_cons hhead
  have hmem : m ∈ queueSlots s.kernel p := by
    rw [hqueue]
    exact List.mem_cons_self
  have hused : (dequeue s.kernel p m out).2.msgUsed = Function.update s.kernel.msgUsed m false :=
    (dequeue_frame s.kernel p m out).2.1
  have hholds : ∀ q slot, (Function.update s.pcs p .outside q).holds slot =
      (s.pcs q).holds slot := by
    intro q slot
    rw [holds_update]
    split_ifs with hqp
    · rw [hqp, hpc]
      rfl
    · rfl
  refine hinv.moved (Function.update (queueSlots s.kernel) p rest)
    (quietStep_dequeue s.kernel p m out) (fun q hq ↦ ?_) nofun (fun q slot h ↦ ?_) nofun ?_
  · have hne : q ≠ p := fun heq ↦ hinv.current p hcurrent (heq ▸ hq)
    exact (dequeue_msgQueue s.kernel p q m out).trans (if_neg hne)
  · rw [hholds] at h
    have hne : slot ≠ m := fun heq ↦ hinv.not_queued h p (heq ▸ hmem)
    rw [hused, Function.update_of_ne hne]
    exact hinv.held_used q slot h
  · have hmark : queuedMark ⟨(dequeue s.kernel p m out).2, Function.update s.pcs p .outside⟩ =
        Function.update (queuedMark s) m false := by
      funext slot
      by_cases hslot : slot = m
      · rw [hslot, Function.update_self]
        refine queuedMark_of_unused ?_
        dsimp only
        rw [hused, Function.update_self]
      · rw [Function.update_of_ne hslot]
        refine queuedMark_congr ?_ fun q ↦ hholds q slot
        dsimp only
        rw [hused, Function.update_of_ne hslot]
    rw [hmark]
    exact hinv.queues.dequeue out hqueue

/-- A step that sets no mark of a slot in use keeps the invariant. -/
theorem SlotInvariant.effect (hinv : SlotInvariant s) (heffect : SlotEffect s event after)
    (hfree : SetsFree s event) : SlotInvariant after := by
  cases heffect with
  | quiet hkept hholds htargets => exact hinv.quiet hkept hholds htargets
  | added p hadded hpcs =>
    obtain ⟨k, pcs⟩ := after
    obtain rfl : pcs = s.pcs := hpcs
    exact hinv.added hadded
  | set p args target m hevent hcurrent hpc hafter =>
    rw [hafter]
    exact hinv.set hpc (hfree p args target m hevent hcurrent hpc)
  | write p args target m stage later f hcurrent hpc hafter =>
    rw [hafter]
    exact hinv.write f hpc
  | queue p args target m hcurrent hpc hafter =>
    rw [hafter]
    exact hinv.queued hpc
  | receive p m out hcurrent hpc hhead hafter =>
    rw [hafter]
    exact hinv.received hcurrent hpc hhead

/-! ### The messages in the queues -/

/-- The messages of a queue whose slots and their contents are known. -/
theorem queuedMessages_of_queues {queued : MsgIndex → Bool} {next : Kernel}
    (hqueues : SlotQueues next queued queue) {slots : List MsgIndex} (hslots : queue q = slots)
    (hheld : ∀ slot ∈ slots, heldMessage (next.msgPool slot) = heldMessage (k.msgPool slot)) :
    queuedMessages next q = slots.map fun slot ↦ heldMessage (k.msgPool slot) := by
  rw [queuedMessages, hqueues.eq_queueSlots, hslots]
  exact List.map_congr_left hheld

/-- Queueing writes the pointers of slots and no message. -/
theorem heldMessage_queueAndWake {target : ProcIndex}
    (htail : (k.procTable target).msgTail ≠ some m) (slot : MsgIndex) :
    heldMessage ((queueAndWake k target m).msgPool slot) = heldMessage (k.msgPool slot) := by
  rw [queueAndWake, (procWakeup_frame _ target).1, enqueue_msgPool k target m slot htail]
  split_ifs with hslot
  · rw [hslot]
    rfl
  · rfl
  · rfl

/-- Every step from a state where the slots are exclusive. -/
theorem SlotInvariant.messagesKept (hinv : SlotInvariant s) (heffect : SlotEffect s event after) :
    MessagesKept s after := by
  intro q
  cases heffect with
  | quiet hkept hholds htargets =>
    exact Or.inl (queueSlots_congr hkept.msgPool_eq (msgQueue_of_kept hkept q)).2
  | added p hadded hpcs =>
    refine Or.inl (queuedMessages_of_queues
      (hinv.queues.added hadded (hinv.unused_empty p hadded.unused_before)) rfl fun slot _ ↦ ?_)
    rw [hadded.msgPool_eq]
  | set p args target m hevent hcurrent hpc hafter =>
    rw [hafter]
    exact Or.inl rfl
  | write p args target m stage later f hcurrent hpc hafter =>
    have hheld : (s.pcs p).holds m = true := by
      rw [hpc]
      exact Pc.holds_fill.mpr rfl
    rw [hafter]
    refine Or.inl (queuedMessages_of_queues
      (hinv.queues.setMessage (queuedMark_of_held hheld) f) rfl fun slot hslot ↦ ?_)
    have hne : slot ≠ m := fun heq ↦ hinv.not_queued hheld q (heq ▸ hslot)
    rw [setMessage_msgPool_of_ne s.kernel f hne]
  | queue p args target m hcurrent hpc hafter =>
    have hheld : (s.pcs p).holds m = true := by
      rw [hpc]
      exact Pc.holds_fill.mpr rfl
    rw [hafter]
    have hqueues := hinv.queuesQueued hheld target
    have hkept := fun slot ↦ heldMessage_queueAndWake
      (hinv.queues.tail_ne_of_unused (queuedMark_of_held hheld) target) slot
    by_cases heq : q = target
    · refine Or.inr (Or.inl ⟨p, m, hcurrent, hheld, ?_⟩)
      rw [heq, queuedMessages_of_queues hqueues (Function.update_self ..) fun slot _ ↦ hkept slot,
        List.map_append]
      rfl
    · exact Or.inl (queuedMessages_of_queues hqueues (Function.update_of_ne heq ..)
        fun slot _ ↦ hkept slot)
  | receive p m out hcurrent hpc hhead hafter =>
    rw [hafter]
    obtain ⟨rest, hqueue⟩ := hinv.queues.exists_cons hhead
    have hqueues := hinv.queues.dequeue out hqueue
    have hkept : ∀ slot, heldMessage ((dequeue s.kernel p m out).2.msgPool slot) =
        heldMessage (s.kernel.msgPool slot) := by
      intro slot
      rw [(dequeue_frame s.kernel p m out).1]
    by_cases heq : q = p
    · subst heq
      refine Or.inr (Or.inr ⟨heldMessage (s.kernel.msgPool m), hcurrent, ?_, ?_⟩)
      · rw [hpc]
        rfl
      · rw [queuedMessages_of_queues hqueues (Function.update_self ..) fun slot _ ↦ hkept slot,
          queuedMessages, hqueue, List.map_cons]
    · exact Or.inl (queuedMessages_of_queues hqueues (Function.update_of_ne heq ..)
        fun slot _ ↦ hkept slot)

/-! ### Runs -/

/-- `kernel_main` leaves the queues empty and no send in progress. -/
theorem SlotInvariant.start (hstart : (preemptSystem entryPoints idle).start s) :
    SlotInvariant s := by
  obtain ⟨⟨procIdle, idleStack, shell, hmain⟩, hpcs⟩ := hstart
  have hinv : IpcInvariant [] s.kernel :=
    IpcInvariant.start (show (ipcSystem entryPoints).start s.kernel from
      ⟨procIdle, idleStack, shell, idle, hmain⟩)
  have hholds : ∀ p m, (s.pcs p).holds m = false := by
    intro p m
    rw [hpcs]
    rfl
  have hmark : queuedMark s = s.kernel.msgUsed := by
    funext m
    rw [Bool.eq_iff_iff, queuedMark_iff]
    exact and_iff_left fun p ↦ hholds p m
  refine ⟨hinv.pids.current, fun p target htarget ↦ ?_, hinv.unused_empty, fun p m hheld ↦ ?_,
    fun p q m hheld ↦ ?_, ?_⟩
  · rw [hpcs] at htarget
    cases htarget
  · rw [hholds] at hheld
    cases hheld
  · rw [hholds] at hheld
    cases hheld
  · rw [hmark]
    exact hinv.queues

/-- The run lemma. -/
theorem SlotInvariant.of_run {events : List PreemptEvent}
    (hrun : ((preemptSystem entryPoints idle).restrict SetsFree).Run events s) :
    SlotInvariant s := by
  refine hrun.invariant (motive := SlotInvariant) (fun state hstart ↦ ?_) ?_
  · have horigin : (preemptSystem entryPoints idle).start state := hstart
    exact SlotInvariant.start horigin
  · rintro state event next hinv ⟨hfree, hstep⟩
    exact hinv.effect (slotEffect_of_step hinv.current hstep) hfree

/-- A step that sets the mark of a slot in use leaves the slot with a second holder. -/
theorem SlotInvariant.setsFree_of_exclusive (hinv : SlotInvariant s)
    (hstep : (preemptSystem entryPoints idle).step s event after) (hafter : SlotsExclusive after) :
    SetsFree s event := by
  intro p args target m hevent hcurrent hpc
  obtain rfl : after = ⟨{ s.kernel with msgUsed := Function.update s.kernel.msgUsed m true },
      Function.update s.pcs p (.fill args target m .next)⟩ := by
    rw [hevent] at hstep
    have hperform : s.kernel.currentProc.map s.execute = some after := hstep
    rw [hcurrent, Option.map_some, Option.some.injEq, PreemptState.execute, hpc] at hperform
    exact hperform.symm
  have hheld : (Function.update s.pcs p (.fill args target m .next) p).holds m = true := by
    rw [holds_update, if_pos rfl]
    exact Pc.holds_fill.mpr rfl
  by_contra hused
  by_cases hnone : ∀ q, (s.pcs q).holds m = false
  · have hmark := queuedMark_iff.mpr ⟨Bool.not_eq_false _ ▸ hused, hnone⟩
    obtain ⟨q, hmem⟩ := (hinv.queues.used_iff m).mp hmark
    exact hafter.send_queue p q m hheld hmem
  · obtain ⟨q, hq⟩ := not_forall.mp hnone
    have hne : q ≠ p := by
      rintro rfl
      rw [hpc] at hq
      exact hq rfl
    refine hne (hafter.sends q p m ?_ hheld)
    rw [holds_update, if_neg hne]
    exact Bool.not_eq_false _ ▸ hq

variable {events : List PreemptEvent}

/-- In every state of a run that sets no mark of a slot in use, the slots are exclusive. The next
step, whatever it is, changes no queued message, and it keeps the slots exclusive exactly when it
sets no such mark. -/
theorem slots_exclusive_run
    (hrun : ((preemptSystem entryPoints idle).restrict SetsFree).Run events s) :
    SlotsExclusive s ∧ ∀ event after, (preemptSystem entryPoints idle).step s event after →
      MessagesKept s after ∧ (SlotsExclusive after ↔ SetsFree s event) := by
  have hinv := SlotInvariant.of_run hrun
  refine ⟨hinv.exclusive, fun event after hstep ↦ ?_⟩
  have heffect := slotEffect_of_step hinv.current hstep
  exact ⟨hinv.messagesKept heffect, hinv.setsFree_of_exclusive hstep,
    fun hfree ↦ (hinv.effect heffect hfree).exclusive⟩

/-- The first process sends itself a message, without data, and the queue's slot is marked. -/
def sendToSelf : List PreemptEvent :=
  twoCreated ++ [.own (.send ⟨2, 7#32, none, 0#32⟩)] ++ List.replicate 11 .statement

def sentState : Option PreemptState :=
  sendToSelf.foldlM (fun s event ↦
    if SetsFree s event then event.perform ⟨1#64, 2#64⟩ 0 s else none)
    ⟨idleAlone, fun _ ↦ .outside⟩

theorem sentState_isSome : sentState.isSome = true := by
  decide +kernel

theorem slots_exclusive_run_self : ∃ s : PreemptState,
    ((preemptSystem ⟨1#64, 2#64⟩ 0).restrict SetsFree).Run sendToSelf s ∧
      (s.kernel.procTable 1).msgQueue = some 0 ∧ s.kernel.msgUsed 0 = true ∧ SlotsExclusive s := by
  have hrun := TransitionSystem.Run.restrict_of_get start_idleAlone sentState_isSome
  obtain ⟨hexclusive, -⟩ := slots_exclusive_run hrun
  have hqueue : ((sentState.get sentState_isSome).kernel.procTable 1).msgQueue = some 0 := by
    decide +kernel
  have hused : (sentState.get sentState_isSome).kernel.msgUsed 0 = true := by decide +kernel
  exact ⟨_, hrun, hqueue, hused, hexclusive⟩

/-- Both processes send to idle. Ten ticks after the first has tested slot 0 the second tests and
marks it, and when the first runs again, it marks it too. -/
def bothSend : List PreemptEvent :=
  twoCreated ++ [.own (.send ⟨1, 7#32, none, 0#32⟩)] ++ List.replicate 3 .statement ++
    List.replicate 10 .tick ++ [.own (.send ⟨1, 8#32, none, 0#32⟩)] ++
    List.replicate 4 .statement ++ List.replicate 20 .tick ++ [.statement]

def bothState : Option PreemptState :=
  bothSend.foldlM (PreemptEvent.perform ⟨1#64, 2#64⟩ 0) ⟨idleAlone, fun _ ↦ .outside⟩

theorem bothState_isSome : bothState.isSome = true := by
  decide +kernel

/-- Two sends in progress hold slot 0. -/
theorem slot_held_twice : ¬ ∀ entryPoints idle events s,
    (preemptSystem entryPoints idle).Run events s → SlotsExclusive s := by
  intro hall
  have hrun := TransitionSystem.Run.of_get start_idleAlone bothState_isSome
  have hexclusive : SlotsExclusive (bothState.get bothState_isSome) := hall _ _ _ _ hrun
  have hfirst : ((bothState.get bothState_isSome).pcs 1).holds 0 = true := by decide +kernel
  have hsecond : ((bothState.get bothState_isSome).pcs 2).holds 0 = true := by decide +kernel
  exact absurd (hexclusive.sends 1 2 0 hfirst hsecond) (by decide)

end Colix.Ipc
