import Colix.Arch.InterruptStub
import Colix.Foundation.InterruptController
import Colix.Proc.TimerPreemption

/-!
# The interrupt controllers under the timer

`pic_init` and `pic_send_eoi` of `kernel/arch/x86_64/pic_pit.c`, store by store, on the two
controllers they program. The machine of `TimerPreemption` lets the timer in by `hardwareGate`, a
bit that an interrupt sets and its acknowledgement clears. Here the controllers are in its place:
the devices raise and withdraw their requests when they please, the processor sees a request and
acknowledges it later, and the number it is answered with goes through `interrupt_dispatch`.

`board_refines` is that the gate is what the controllers do, in every interleaving: whatever the
requests, the machine on the board is in a state of a run with `hardwareGate`, no other interrupt
than the timer's is ever delivered, but for the number that answers a request withdrawn, and the end
of that one's handling leaves the timer's interrupt alone.
-/

set_option autoImplicit false
set_option relaxedAutoImplicit false

namespace Colix.Proc

open Foundation Arch

/-! ### The source -/

/-- `IDT_IRQ_BASE`. -/
abbrev idtIrqBase : Byte := 0x20#8

/-- The ports of the controllers. -/
abbrev picMasterCmd : BitVec 16 := 0x20#16
abbrev picMasterData : BitVec 16 := 0x21#16
abbrev picSlaveCmd : BitVec 16 := 0xA0#16
abbrev picSlaveData : BitVec 16 := 0xA1#16

/-- A call of `outb`. -/
structure PortStore where
  port : BitVec 16
  value : Byte
deriving DecidableEq

/-- `io_wait`. -/
def ioWait : PortStore := ⟨0x80#16, 0#8⟩

/-- The stores of `pic_init`. -/
def picInitCode : List PortStore :=
  [⟨picMasterCmd, 0x11#8⟩, ⟨picSlaveCmd, 0x11#8⟩, ioWait,
    ⟨picMasterData, idtIrqBase⟩, ⟨picSlaveData, idtIrqBase + 8#8⟩, ioWait,
    ⟨picMasterData, 0x04#8⟩, ⟨picSlaveData, 0x02#8⟩, ioWait,
    ⟨picMasterData, 0x01#8⟩, ⟨picSlaveData, 0x01#8⟩, ioWait,
    -- the timer alone is let through
    ⟨picMasterData, 0xFE#8⟩, ⟨picSlaveData, 0xFF#8⟩]

/-- The stores of `pic_send_eoi`. -/
def picSendEoi (irq : Byte) : List PortStore :=
  (if 8#8 ≤ irq then [⟨picSlaveCmd, 0x20#8⟩] else []) ++ [⟨picMasterCmd, 0x20#8⟩]

/-! ### The board -/

/-- A store to a port of the controllers. -/
def outb (p : ControllerPair) (store : PortStore) : ControllerPair :=
  if store.port = picMasterCmd then { p with master := p.master.command store.value }
  else if store.port = picMasterData then { p with master := p.master.data store.value }
  else if store.port = picSlaveCmd then { p with slave := p.slave.command store.value }
  else if store.port = picSlaveData then { p with slave := p.slave.data store.value }
  else p

/-- A request line of one of the controllers changes. -/
structure LineChange where
  ofSlave : Bool
  line : Line
  level : Bool

def LineChange.apply (change : LineChange) (p : ControllerPair) : ControllerPair :=
  if change.ofSlave then { p with slave := p.slave.setRequest change.line change.level }
  else { p with master := p.master.setRequest change.line change.level }

/-- `pic_init` in progress: the controllers, and the stores that are left. -/
structure PicSetup where
  chips : ControllerPair
  code : List PortStore

/-- `pic_init` runs with interrupts disabled, and lines change between its stores. -/
inductive SetupEvent
  | change (change : LineChange)
  | store

def PicSetup.next (s : PicSetup) : SetupEvent → Option PicSetup
  | .change change => some { s with chips := change.apply s.chips }
  | .store =>
    match s.code with
    | [] => none
    | store :: code => some { chips := outb s.chips store, code := code }

/-- The runs of `pic_init`, on controllers with nothing in service. -/
def setupSystem : TransitionSystem PicSetup SetupEvent :=
  .ofFunction
    (fun s ↦ s.code = picInitCode ∧ s.chips.master.inService = (fun _ ↦ false) ∧
      s.chips.slave.inService = fun _ ↦ false) PicSetup.next

/-- The processor's machine and the controllers. `seen` is that the processor has taken notice of a
request and is about to acknowledge it, and `other` the handling of an interrupt that is not the
timer's: the stores it has still to make. -/
structure Board where
  machine : Machine
  chips : ControllerPair
  seen : Bool
  other : Option (List PortStore)

/-- A step: a line changes, the processor sees a request, it acknowledges it with the registers of
some frame, the handling of an interrupt that is not the timer's goes on, or the machine does. -/
inductive BoardEvent
  | change (change : LineChange)
  | see
  | acknowledge (frame : InterruptFrame)
  | other
  | machine (event : MachineEvent)

/-- The next statement of the machine is the `pic_send_eoi` of a timer interrupt. -/
def Machine.atEoi (m : Machine) : Bool :=
  m.stack.handlers.head?.any fun handler ↦
    match handler.stage with
    | .eoi => true
    | _ => false

/-- What a step of the machine stores to the controllers. -/
def MachineEvent.stores (m : Machine) : MachineEvent → List PortStore
  | .statement => if m.atEoi then picSendEoi 0#8 else []
  | _ => []

/-- What `interrupt_dispatch` does with the number. An exception or a system call does not come from
the controllers. -/
def Board.dispatch (b : Board) : Dispatch → Option Board
  | .irq irq =>
    if irq = 0#8 then some { b with machine := b.machine.interrupt }
    else some { b with other := some (picSendEoi irq) }
  | .none => some { b with other := some [] }
  | .exception _ | .syscall .. => none

/-- The processor is answered with a number. -/
def Board.answered (b : Board) (frame : InterruptFrame) : Option Board :=
  let (no, chips) := b.chips.acknowledge
  { b with chips := chips, seen := false }.dispatch
    (interruptDispatch { frame with intNo := no.setWidth 64 })

/-- The state after a step, when the step is possible. While an interrupt other than the timer's is
handled, interrupts are disabled. -/
def Board.next (entryPoints : EntryPoints) (b : Board) : BoardEvent → Option Board
  | .change change => some { b with chips := change.apply b.chips }
  | .see =>
    if b.seen = false ∧ b.other = none ∧ b.machine.interruptFlag = true ∧
        b.chips.master.candidate.isSome then
      some { b with seen := true }
    else none
  | .acknowledge frame => if b.seen then b.answered frame else none
  | .other =>
    match b.other with
    | none => none
    | some [] => some { b with other := none }
    | some (store :: stores) => some { b with chips := outb b.chips store, other := some stores }
  | .machine event =>
    if b.seen = false ∧ b.other = none then
      (event.perform entryPoints (fun _ ↦ false) b.machine).map fun machine ↦
        { b with machine := machine, chips := (event.stores b.machine).foldl outb b.chips }
    else none

/-- The runs of the board from the start of the scheduler, with the controllers as a run of
`pic_init` left them. -/
def boardSystem (entryPoints : EntryPoints) : TransitionSystem Board BoardEvent :=
  .ofFunction
    (fun b ↦ (timerSystem entryPoints hardwareGate).start b.machine ∧ b.seen = false ∧
      b.other = none ∧ ∃ events, setupSystem.Run events ⟨b.chips, []⟩)
    (Board.next entryPoints)

/-! ### The setup -/

/-- The pair with no line requesting. -/
def quietPair (p : ControllerPair) : ControllerPair :=
  ⟨p.master.quiet, p.slave.quiet⟩

section Setup

variable {p q : ControllerPair}

theorem quietPair_change (change : LineChange) (p : ControllerPair) :
    quietPair (change.apply p) = quietPair p := by
  rw [LineChange.apply]
  split_ifs <;> rfl

/-- What a store does to the controllers other than their requests does not depend on these. -/
theorem quietPair_outb (hquiet : quietPair p = quietPair q) (store : PortStore) :
    quietPair (outb p store) = quietPair (outb q store) := by
  obtain ⟨hmaster, hslave⟩ := ControllerPair.mk.inj hquiet
  rw [outb, outb]
  split_ifs
  · exact congrArg₂ _ (Controller.quiet_command hmaster _) hslave
  · exact congrArg₂ _ (Controller.quiet_data hmaster _) hslave
  · exact congrArg₂ _ hmaster (Controller.quiet_command hslave _)
  · exact congrArg₂ _ hmaster (Controller.quiet_data hslave _)
  · exact hquiet

theorem quietPair_foldl (hquiet : quietPair p = quietPair q) (code : List PortStore) :
    quietPair (code.foldl outb p) = quietPair (code.foldl outb q) := by
  induction code generalizing p q with
  | nil => exact hquiet
  | cons store code ih => exact ih (quietPair_outb hquiet store)

/-- The controllers as `pic_init` programs them, with the timer in service or not. -/
structure Programmed (p : ControllerPair) (serving : Bool) : Prop where
  master : p.master.Only 0 serving
  masterBase : p.master.vectorBase = 0x20#8
  masterCascade : p.master.cascade = 0x04#8
  masterEnd : p.master.autoEnd = false
  masterStage : p.master.stage = .mask
  slaveMasked : p.slave.masked = fun _ ↦ true
  slaveService : p.slave.inService = fun _ ↦ false

/-- The stores of `pic_init`, one after the other. -/
theorem picInitCode_foldl (p : ControllerPair) : picInitCode.foldl outb p =
    { master :=
        { requested := fun _ ↦ false
          masked := fun line ↦ (0xFE#8).getLsbD line
          inService := p.master.inService
          vectorBase := 0x20#8
          cascade := 0x04#8
          autoEnd := false
          single := false
          needsMode := true
          stage := .mask }
      slave :=
        { requested := fun _ ↦ false
          masked := fun line ↦ (0xFF#8).getLsbD line
          inService := p.slave.inService
          vectorBase := 0x28#8
          cascade := 0x02#8
          autoEnd := false
          single := false
          needsMode := true
          stage := .mask } } :=
  rfl

/-- Whatever the lines do between its stores, `pic_init` leaves the controllers programmed. -/
theorem programmed_setup {events : List SetupEvent} {chips : ControllerPair}
    (hrun : setupSystem.Run events ⟨chips, []⟩) : Programmed chips false := by
  have hend : ∃ origin : ControllerPair, origin.master.inService = (fun _ ↦ false) ∧
      origin.slave.inService = (fun _ ↦ false) ∧
        quietPair chips = quietPair (picInitCode.foldl outb origin) := by
    refine hrun.invariant (motive := fun s ↦ ∃ origin : ControllerPair,
      origin.master.inService = (fun _ ↦ false) ∧ origin.slave.inService = (fun _ ↦ false) ∧
        quietPair (s.code.foldl outb s.chips) = quietPair (picInitCode.foldl outb origin)) ?_ ?_
    · rintro s ⟨hcode, hmaster, hslave⟩
      exact ⟨s.chips, hmaster, hslave, by rw [hcode]⟩
    · rintro s event next ⟨origin, hmaster, hslave, hquiet⟩ hstep
      refine ⟨origin, hmaster, hslave, Eq.trans ?_ hquiet⟩
      cases event with
      | change change =>
        obtain rfl := Option.some.inj hstep
        exact quietPair_foldl (quietPair_change change s.chips) s.code
      | store =>
        obtain ⟨chips, _ | ⟨store, code⟩⟩ := s
        · cases hstep
        · obtain rfl := Option.some.inj hstep
          rfl
  obtain ⟨origin, hmaster, hslave, hquiet⟩ := hend
  rw [picInitCode_foldl, hmaster, hslave] at hquiet
  obtain ⟨hquietMaster, hquietSlave⟩ := ControllerPair.mk.inj hquiet
  obtain ⟨-, hmasked, hservice, hbase, hcascade, hend, -, -, hstage⟩ :=
    Controller.mk.inj hquietMaster
  obtain ⟨-, hslaveMasked, hslaveService, -⟩ := Controller.mk.inj hquietSlave
  have hfirst : ∀ line : Line, (0xFE#8).getLsbD line = decide (line ≠ 0) := by decide
  have hall : ∀ line : Line, (0xFF#8).getLsbD line = true := by decide
  exact
    { master := ⟨hmasked.trans (funext hfirst), hservice.trans (by simp)⟩
      masterBase := hbase
      masterCascade := hcascade
      masterEnd := hend
      masterStage := hstage
      slaveMasked := hslaveMasked.trans (funext hall)
      slaveService := hslaveService }

end Setup

/-! ### What the controllers do -/

namespace Programmed

variable {p : ControllerPair} {serving : Bool}

theorem change (hprogrammed : Programmed p serving) (change : LineChange) :
    Programmed (change.apply p) serving := by
  obtain ⟨ofSlave, line, level⟩ := change
  cases ofSlave with
  | false => exact { hprogrammed with master := hprogrammed.master.setRequest line level }
  | true =>
    exact
      { hprogrammed with
        slaveMasked := hprogrammed.slaveMasked
        slaveService := hprogrammed.slaveService }

/-- The answer to an acknowledgement: the timer's number, or the last line's when the request has
gone. -/
theorem acknowledge (hprogrammed : Programmed p serving) :
    p.acknowledge.1 = (if p.master.requested 0 && !serving then 0x20#8 else 0x27#8) ∧
      Programmed p.acknowledge.2 (serving || p.master.requested 0) := by
  have hnext := hprogrammed.master.acknowledge hprogrammed.masterEnd
  have hbase : p.master.acknowledge.vectorBase = p.master.vectorBase ∧
      p.master.acknowledge.cascade = p.master.cascade ∧
        p.master.acknowledge.autoEnd = p.master.autoEnd ∧
          p.master.acknowledge.stage = p.master.stage := by
    rw [Controller.acknowledge]
    split <;> exact ⟨rfl, rfl, rfl, rfl⟩
  obtain ⟨hvectors, hcascade, hend, hstage⟩ := hbase
  have hline : p.master.acknowledged = if p.master.requested 0 && !serving then 0 else 7 := by
    rw [Controller.acknowledged, hprogrammed.master.candidate_eq]
    split_ifs <;> rfl
  have halone : p.acknowledge =
      (p.master.vector p.master.acknowledged, ⟨p.master.acknowledge, p.slave⟩) := by
    rw [ControllerPair.acknowledge, hprogrammed.masterCascade, hline]
    split_ifs with hrequest hcascaded hcascaded
    · exact absurd hcascaded.1 (by decide)
    · rfl
    · exact absurd hcascaded.1 (by decide)
    · rfl
  rw [halone]
  refine ⟨?_, ?_⟩
  · rw [Controller.vector, hprogrammed.masterBase, hline]
    split_ifs <;> rfl
  · exact
      { hprogrammed with
        master := hnext
        masterBase := hvectors.trans hprogrammed.masterBase
        masterCascade := hcascade.trans hprogrammed.masterCascade
        masterEnd := hend.trans hprogrammed.masterEnd
        masterStage := hstage.trans hprogrammed.masterStage }

/-- The store that ends an interrupt on the master. -/
theorem masterEoi (hprogrammed : Programmed p serving) :
    Programmed (outb p ⟨picMasterCmd, 0x20#8⟩) false := by
  have hkept : p.master.endInterrupt.vectorBase = p.master.vectorBase ∧
      p.master.endInterrupt.cascade = p.master.cascade ∧
        p.master.endInterrupt.autoEnd = p.master.autoEnd ∧
          p.master.endInterrupt.stage = p.master.stage := by
    rw [Controller.endInterrupt]
    split <;> exact ⟨rfl, rfl, rfl, rfl⟩
  obtain ⟨hvectors, hcascade, hend, hstage⟩ := hkept
  exact
    { hprogrammed with
      master := hprogrammed.master.endInterrupt
      masterBase := hvectors.trans hprogrammed.masterBase
      masterCascade := hcascade.trans hprogrammed.masterCascade
      masterEnd := hend.trans hprogrammed.masterEnd
      masterStage := hstage.trans hprogrammed.masterStage }

end Programmed

/-! ### What the machine does -/

section MachineSteps

variable {m after : Machine} {entryPoints : EntryPoints}

/-- A statement of `schedule` leaves the interrupt in service. -/
theorem scheduleStep_inService {call : ScheduleCall} {put : Option ScheduleCall → Stack}
    (hstep : m.scheduleStep call put = some after) : after.inService = m.inService := by
  rcases Machine.scheduleStep_cases hstep with ⟨stage, -, hafter⟩ | ⟨-, hafter⟩ |
    ⟨old, p, -, hswitch⟩
  · rw [hafter]
    rfl
  · rw [hafter]
    rfl
  · obtain ⟨context, -, rfl⟩ := Machine.switch_cases hswitch
    rfl

/-- A statement of a timer interrupt. -/
theorem handlerStep_inService {handler : Handler} {handlers : List Handler}
    (hhandlers : m.stack.handlers = handler :: handlers)
    (hstep : m.handlerStep handler handlers = some after) :
    after.inService = (m.inService && !m.atEoi) := by
  have hat : m.atEoi = match handler.stage with
      | .eoi => true
      | _ => false := by
    rw [Machine.atEoi, hhandlers]
    rfl
  rw [hat]
  rw [Machine.handlerStep] at hstep
  cases hstage : handler.stage with
  | schedule call =>
    rw [hstage] at hstep
    rw [scheduleStep_inService hstep, Bool.not_false, Bool.and_true]
  | eoi =>
    rw [hstage] at hstep
    obtain rfl := Option.some.inj hstep
    exact (Bool.and_false _).symm
  | _ =>
    rw [hstage] at hstep
    obtain rfl := Option.some.inj hstep
    exact (Bool.and_true _).symm

/-- A statement of a call. -/
theorem callStep_inService {call : CallStage} (hstep : m.callStep call = some after) :
    after.inService = m.inService := by
  cases call with
  | schedule call =>
    have hschedule : m.scheduleStep call (fun later ↦
        { m.stack with call := later.map CallStage.schedule }) = some after := hstep
    exact scheduleStep_inService hschedule
  | _ =>
    obtain rfl := Option.some.inj hstep
    rfl

/-- A step other than a tick ends the interrupt in service exactly when it stores to the
controllers. -/
theorem perform_inService {event : MachineEvent}
    (hstep : event.perform entryPoints (fun _ ↦ false) m = some after) :
    after.inService = (m.inService && (event.stores m).isEmpty) := by
  have hsystem : (timerSystem entryPoints fun _ ↦ false).step m event after := hstep
  rcases timerStep_cases hsystem with ⟨-, hgate, -⟩ | ⟨rfl, hstatement⟩ | ⟨made, rfl, -, hmade⟩
  · cases hgate
  · have hempty : (MachineEvent.stores m .statement).isEmpty = !m.atEoi := by
      rw [MachineEvent.stores]
      cases m.atEoi <;> rfl
    rw [hempty]
    rcases Machine.statement_cases hstatement with ⟨handler, handlers, hhandlers, hhandler⟩ |
      ⟨hhandlers, hbelow⟩
    · exact handlerStep_inService hhandlers hhandler
    · have hat : m.atEoi = false := by
        rw [Machine.atEoi, hhandlers]
        rfl
      rw [hat, Bool.not_false, Bool.and_true]
      rcases hbelow with ⟨call, -, hcall⟩ | ⟨-, rfl⟩
      · exact callStep_inService hcall
      · rcases m.baseStep_cases with heq | heq
        · rw [heq]
        · rw [heq]
          rfl
  · change after.inService = (m.inService && true)
    rw [Bool.and_true]
    rcases CodeCall.perform_cases hmade with ⟨stage, -, rfl⟩ | ⟨p, rfl⟩ |
      ⟨base, ⟨p, k⟩, -, rfl⟩ | ⟨flag, base, rfl⟩
    · rfl
    · rfl
    · cases p <;> rfl
    · rfl

theorem stores_cases (m : Machine) (event : MachineEvent) :
    event.stores m = [] ∨ event.stores m = picSendEoi 0#8 := by
  cases event with
  | statement =>
    rw [MachineEvent.stores]
    split_ifs
    · exact Or.inr rfl
    · exact Or.inl rfl
  | _ => exact Or.inl rfl

/-- Without ticks, the machine does what it does with any gate. -/
theorem step_of_perform {event : MachineEvent} (gate : Machine → Bool)
    (hstep : event.perform entryPoints (fun _ ↦ false) m = some after) :
    (timerSystem entryPoints gate).step m event after := by
  cases event with
  | tick => cases hstep
  | statement => exact hstep
  | own made => exact hstep

end MachineSteps

/-! ### Runs of the board -/

/-- What every step of the board keeps. -/
structure BoardInvariant (entryPoints : EntryPoints) (b : Board) : Prop where
  reached : ∃ history, (timerSystem entryPoints hardwareGate).Run history b.machine
  programmed : Programmed b.chips b.machine.inService
  seen : b.seen = true → b.other = none ∧ hardwareGate b.machine = true
  other : ∀ stores ∈ b.other, b.machine.inService = false ∧ (stores = picSendEoi 7#8 ∨ stores = [])

section Board

variable {entryPoints : EntryPoints} {b next : Board}

/-- The numbers of the controllers go to the handling of their lines. -/
theorem dispatch_irq (frame : InterruptFrame) {no : Byte} (hge : 0x20#8 ≤ no) (hlt : no < 0x30#8) :
    interruptDispatch { frame with intNo := no.setWidth 64 } = .irq (no - 0x20#8) := by
  have hwide : (no.setWidth 64 : Word).toNat = no.toNat := by
    rw [BitVec.toNat_setWidth]
    exact Nat.mod_eq_of_lt (no.isLt.trans (by decide))
  have hlow : ¬ (no.setWidth 64 : Word) < 32#64 := by
    rw [BitVec.lt_def, hwide]
    exact Nat.not_lt.mpr hge
  have hhigh : (no.setWidth 64 : Word) < 48#64 := by
    rw [BitVec.lt_def, hwide]
    exact hlt
  have hcall : (no.setWidth 64 : Word) ≠ 0x80#64 := by
    rintro heq
    rw [heq] at hhigh
    exact absurd hhigh (by decide)
  rw [interruptDispatch, if_neg hlow, if_neg hcall, if_pos ⟨BitVec.not_lt.mp hlow, hhigh⟩]
  congr 1
  refine BitVec.eq_of_toNat_eq ?_
  rw [BitVec.toNat_setWidth, BitVec.toNat_sub_of_le (BitVec.not_lt.mp hlow), hwide,
    BitVec.toNat_sub_of_le hge]
  exact Nat.mod_eq_of_lt ((Nat.sub_le ..).trans_lt no.isLt)

/-- The processor is answered. -/
theorem BoardInvariant.answered (hinv : BoardInvariant entryPoints b) (hseen : b.seen = true)
    (frame : InterruptFrame) :
    ∃ next, b.answered frame = some next ∧ BoardInvariant entryPoints next ∧
      next.machine = if b.chips.master.requested 0 then b.machine.interrupt else b.machine := by
  obtain ⟨hnone, hgate⟩ := hinv.seen hseen
  have hservice : b.machine.inService = false := by
    have hopen := (Bool.and_eq_true _ _).mp hgate
    simpa using hopen.2
  have hprogrammed := hinv.programmed
  rw [hservice] at hprogrammed
  obtain ⟨hnumber, hafter⟩ := hprogrammed.acknowledge
  rw [Board.answered]
  rcases hpair : b.chips.acknowledge with ⟨no, chips⟩
  rw [hpair] at hnumber hafter
  dsimp only
  cases hrequest : b.chips.master.requested 0 with
  | true =>
    rw [hrequest] at hnumber hafter
    obtain rfl : no = 0x20#8 := hnumber
    refine ⟨{ b with machine := b.machine.interrupt, chips := chips, seen := false }, ?_,
      ⟨?_, hafter, Bool.noConfusion, ?_⟩, rfl⟩
    · rw [dispatch_irq frame (by decide) (by decide)]
      rfl
    · obtain ⟨history, hrun⟩ := hinv.reached
      refine ⟨history ++ [.tick], hrun.step ?_⟩
      exact if_pos hgate
    · intro stores hstores
      have hsome : b.other = some stores := hstores
      rw [hnone] at hsome
      cases hsome
  | false =>
    rw [hrequest] at hnumber hafter
    obtain rfl : no = 0x27#8 := hnumber
    refine ⟨{ b with chips := chips, seen := false, other := some (picSendEoi 7#8) }, ?_,
      ⟨hinv.reached, ?_, Bool.noConfusion, ?_⟩, rfl⟩
    · rw [dispatch_irq frame (by decide) (by decide)]
      rfl
    · change Programmed chips b.machine.inService
      rw [hservice]
      exact hafter
    · intro stores hstores
      exact ⟨hservice, Or.inl (Option.some.inj hstores).symm⟩

/-- Every step of the board. -/
theorem BoardInvariant.step (hinv : BoardInvariant entryPoints b) {event : BoardEvent}
    (hstep : b.next entryPoints event = some next) : BoardInvariant entryPoints next := by
  cases event with
  | change change =>
    obtain rfl := Option.some.inj hstep
    exact { hinv with programmed := hinv.programmed.change change }
  | see =>
    have hguarded := hstep
    rw [Board.next] at hguarded
    split_ifs at hguarded with hsee
    obtain rfl := Option.some.inj hguarded
    obtain ⟨-, hnone, hflag, hsome⟩ := hsee
    refine { hinv with seen := fun _ ↦ ⟨hnone, ?_⟩ }
    rw [hinv.programmed.master.candidate_eq] at hsome
    change (b.machine.interruptFlag && !b.machine.inService) = true
    rw [hflag, Bool.true_and]
    by_contra hservice
    rw [Bool.not_eq_true] at hservice
    rw [hservice, Bool.and_false] at hsome
    cases hsome
  | acknowledge frame =>
    rw [Board.next] at hstep
    split_ifs at hstep with hseen
    obtain ⟨after, hafter, hkept, -⟩ := hinv.answered hseen frame
    obtain rfl := Option.some.inj (hafter.symm.trans hstep)
    exact hkept
  | other =>
    rw [Board.next] at hstep
    have hunseen : b.other ≠ none → b.seen = false := by
      intro hother
      by_contra hseen
      exact hother (hinv.seen (Bool.not_eq_false _ ▸ hseen)).1
    cases hother : b.other with
    | none =>
      rw [hother] at hstep
      cases hstep
    | some stores =>
      rw [hother] at hstep
      have hseen := hunseen (hother ▸ Option.some_ne_none stores)
      obtain ⟨hservice, rfl | rfl⟩ := hinv.other stores hother
      · obtain rfl := Option.some.inj hstep
        refine ⟨hinv.reached, ?_, fun htrue ↦ ?_, fun stores hstores ↦ ⟨hservice, Or.inr ?_⟩⟩
        · change Programmed (outb b.chips ⟨picMasterCmd, 0x20#8⟩) b.machine.inService
          rw [hservice]
          exact hinv.programmed.masterEoi
        · exact absurd (hseen.symm.trans htrue) Bool.noConfusion
        · exact (Option.some.inj hstores).symm
      · obtain rfl := Option.some.inj hstep
        refine ⟨hinv.reached, hinv.programmed, fun htrue ↦ ?_, fun stores hstores ↦ ?_⟩
        · exact absurd (hseen.symm.trans htrue) Bool.noConfusion
        · cases hstores
  | machine event =>
    rw [Board.next] at hstep
    split_ifs at hstep with hidle
    obtain ⟨machine, hmachine, rfl⟩ := Option.map_eq_some_iff.mp hstep
    obtain ⟨hseen, hnone⟩ := hidle
    refine ⟨?_, ?_, fun htrue ↦ ?_, fun stores hstores ↦ ?_⟩
    · obtain ⟨history, hrun⟩ := hinv.reached
      exact ⟨history ++ [event], hrun.step (step_of_perform hardwareGate hmachine)⟩
    · change Programmed ((event.stores b.machine).foldl outb b.chips) machine.inService
      rw [perform_inService hmachine]
      rcases stores_cases b.machine event with hstores | hstores
      · rw [hstores, List.isEmpty_nil, Bool.and_true]
        exact hinv.programmed
      · rw [hstores]
        change Programmed (outb b.chips ⟨picMasterCmd, 0x20#8⟩) (b.machine.inService && false)
        rw [Bool.and_false]
        exact hinv.programmed.masterEoi
    · exact absurd (hseen.symm.trans htrue) Bool.noConfusion
    · have hsome : b.other = some stores := hstores
      rw [hnone] at hsome
      cases hsome

/-- The run lemma. -/
theorem BoardInvariant.of_run {events : List BoardEvent}
    (hrun : (boardSystem entryPoints).Run events b) : BoardInvariant entryPoints b := by
  refine hrun.invariant (motive := BoardInvariant entryPoints) ?_ ?_
  · rintro b ⟨hmachine, hseen, hother, events, hsetup⟩
    have hservice : b.machine.inService = false := by
      obtain ⟨procIdle, idleStack, shell, idle, k, -, heq⟩ := hmachine
      rw [heq]
      rfl
    refine ⟨⟨[], .start hmachine⟩, ?_, fun htrue ↦ ?_, fun stores hstores ↦ ?_⟩
    · rw [hservice]
      exact programmed_setup hsetup
    · exact absurd (hseen.symm.trans htrue) Bool.noConfusion
    · rw [Option.mem_def, hother] at hstores
      cases hstores
  · exact fun b event next hinv hstep ↦ hinv.step hstep

/-- In every run of the board, with the lines of the controllers changing at any time during
`pic_init` and after it, the machine is in a state of a run with `hardwareGate`. The controllers
have the timer in service when the machine does, and no other line. What the processor sees is
answered with the timer's number when the timer still requests, and with that of the last line when
it no longer does, only ever when no interrupt is in service; and a timer that requests while the
gate is open gets in. -/
theorem board_refines {events : List BoardEvent}
    (hrun : (boardSystem entryPoints).Run events b) :
    (∃ history, (timerSystem entryPoints hardwareGate).Run history b.machine) ∧
      (∀ line, b.chips.master.inService line = (decide (line = 0) && b.machine.inService)) ∧
      (∀ line, b.chips.slave.inService line = false) ∧
      (b.seen = true → hardwareGate b.machine = true ∧ b.chips.acknowledge.1 =
        if b.chips.master.requested 0 then idtIrqBase else idtIrqBase + 7#8) ∧
      (b.other.isSome → b.machine.inService = false) ∧
      (b.seen = false → b.other = none → hardwareGate b.machine = true →
        b.chips.master.requested 0 = true → ∀ frame, ∃ next,
          (boardSystem entryPoints).Path b [.see, .acknowledge frame] next ∧
            next.machine = b.machine.interrupt) := by
  have hinv := BoardInvariant.of_run hrun
  refine ⟨hinv.reached, ?_, ?_, ?_, ?_, ?_⟩
  · exact fun line ↦ congrFun hinv.programmed.master.inService line
  · exact fun line ↦ congrFun hinv.programmed.slaveService line
  · intro hseen
    obtain ⟨-, hgate⟩ := hinv.seen hseen
    refine ⟨hgate, ?_⟩
    have hopen := (Bool.and_eq_true _ _).mp hgate
    rw [hinv.programmed.acknowledge.1, hopen.2, Bool.and_true]
    rfl
  · intro hsome
    obtain ⟨stores, hstores⟩ := Option.isSome_iff_exists.mp hsome
    exact (hinv.other stores hstores).1
  · intro hseen hother hgate hrequest frame
    obtain ⟨hflag, hservice⟩ := (Bool.and_eq_true _ _).mp hgate
    have hcandidate : b.chips.master.candidate.isSome = true := by
      rw [hinv.programmed.master.candidate_eq, hrequest, hservice]
      rfl
    have hsee : b.next entryPoints .see = some { b with seen := true } :=
      if_pos ⟨hseen, hother, hflag, hcandidate⟩
    obtain ⟨next, hanswered, -, hmachine⟩ := (hinv.step hsee).answered rfl frame
    have hacknowledge : ({ b with seen := true } : Board).next entryPoints (.acknowledge frame) =
        some next := hanswered
    refine ⟨next, ?_, ?_⟩
    · exact TransitionSystem.Path.step (.step (.refl b) hsee) hacknowledge
    · rw [if_pos hrequest] at hmachine
      exact hmachine

end Board

/-! ### A request withdrawn -/

/-- A controller that has been masked since power-on. -/
def maskedController : Controller where
  requested _ := false
  masked _ := true
  inService _ := false
  vectorBase := 8#8
  cascade := 0#8
  autoEnd := false
  single := false
  needsMode := false
  stage := .mask

/-- The timer requests while `pic_init` runs. -/
def earlyRequest : List SetupEvent :=
  List.replicate 9 .store ++ [.change ⟨false, topLine, true⟩] ++ List.replicate 5 .store

def setupState : Option PicSetup :=
  earlyRequest.foldlM PicSetup.next ⟨⟨maskedController, maskedController⟩, picInitCode⟩

theorem setupState_isSome : setupState.isSome = true := by
  decide +kernel

/-- The board when the scheduler starts. -/
def boardStart : Board where
  machine := .boot 0 twoReady
  chips := (setupState.get setupState_isSome).chips
  seen := false
  other := none

theorem start_boardStart : (boardSystem ⟨1#64, 2#64⟩).start boardStart := by
  have horigin : setupSystem.start ⟨⟨maskedController, maskedController⟩, picInitCode⟩ :=
    ⟨rfl, rfl, rfl⟩
  have hsetup : setupSystem.Run earlyRequest (setupState.get setupState_isSome) :=
    TransitionSystem.Run.of_get horigin setupState_isSome
  exact ⟨start_twoReady hardwareGate, rfl, rfl, earlyRequest, hsetup⟩

/-- The processor sees the timer's request, which is gone when it acknowledges it, and then sees
another. -/
def withdrawnRequest : List BoardEvent :=
  let frame := loadFrame (fun _ ↦ 0#8) 0
  [.see, .change ⟨false, topLine, false⟩, .acknowledge frame, .other, .other,
    .change ⟨false, topLine, true⟩, .see, .acknowledge frame]

def withdrawnState : Option Board :=
  withdrawnRequest.foldlM (Board.next ⟨1#64, 2#64⟩) boardStart

theorem withdrawnState_isSome : withdrawnState.isSome = true := by
  decide +kernel

/-- After it the timer alone is in service. -/
theorem board_refines_withdrawn : ∃ b : Board,
    (boardSystem ⟨1#64, 2#64⟩).Run withdrawnRequest b ∧ b.machine.inService = true ∧
      b.chips.master.inService 0 = true ∧ b.chips.slave.inService 2 = false := by
  have hrun : (boardSystem ⟨1#64, 2#64⟩).Run withdrawnRequest
      (withdrawnState.get withdrawnState_isSome) :=
    TransitionSystem.Run.of_get start_boardStart withdrawnState_isSome
  obtain ⟨-, hmaster, hslave, -⟩ := board_refines hrun
  have hservice : (withdrawnState.get withdrawnState_isSome).machine.inService = true := by
    decide +kernel
  exact ⟨withdrawnState.get withdrawnState_isSome, hrun, hservice, (hmaster 0).trans hservice,
    hslave 2⟩

end Colix.Proc
