import Mathlib.Data.List.FinRange
import Mathlib.Logic.Function.Basic
import Mathlib.Tactic.Common

/-!
# A priority interrupt controller

A chip with eight request lines, the lowest the most urgent, behind a command and a data port. A
write to the command port starts an initialization of up to four words, the rest of which go to the
data port, or ends an interrupt. `Controller.candidate` is the line that the chip would interrupt
for, and `Controller.acknowledge` what it answers the processor with; a request that has gone by
then is answered with the last line. `ControllerPair` is two chips, the second behind a line of the
first.

Rotated priorities, polling and the special modes are left out.
-/

set_option autoImplicit false
set_option relaxedAutoImplicit false

namespace Colix.Foundation

/-- A request line. -/
abbrev Line := Fin 8

/-- The line that comes before all others. -/
def topLine : Line := 0

/-- The most urgent of some lines. -/
def firstLine (lines : Line → Bool) : Option Line :=
  (List.finRange 8).find? lines

/-- What the next write to the data port is. -/
inductive DataStage
  | mask
  | vectors
  | cascade
  | mode
deriving DecidableEq

/-- A chip: the lines that request, those that are masked and those in service, and what it was
initialized with. -/
@[ext]
structure Controller where
  requested : Line → Bool
  masked : Line → Bool
  inService : Line → Bool
  vectorBase : BitVec 8
  cascade : BitVec 8
  autoEnd : Bool
  single : Bool
  needsMode : Bool
  stage : DataStage

namespace Controller

variable (c : Controller)

/-! ### Requests -/

/-- The line that the chip would interrupt for: the most urgent that requests and is not masked,
when none as urgent is in service. -/
def candidate : Option Line :=
  (firstLine fun line ↦ c.requested line && !c.masked line).filter fun line ↦
    (firstLine c.inService).all fun served ↦ decide (line < served)

/-- A line requests, or no longer. -/
def setRequest (line : Line) (level : Bool) : Controller :=
  { c with requested := Function.update c.requested line level }

/-- The line that the chip answers an acknowledgement with. -/
def acknowledged : Line :=
  c.candidate.getD 7

/-- An acknowledgement puts the line in service. -/
def acknowledge : Controller :=
  match c.candidate with
  | none => c
  | some line =>
    { c with
      requested := Function.update c.requested line false
      inService := if c.autoEnd then c.inService else Function.update c.inService line true }

/-- The number that stands for a line. -/
def vector (line : Line) : BitVec 8 :=
  c.vectorBase ||| BitVec.ofNat 8 line

/-! ### Ports -/

/-- The end of the most urgent interrupt in service. -/
def endInterrupt : Controller :=
  match firstLine c.inService with
  | none => c
  | some line => { c with inService := Function.update c.inService line false }

/-- A write to the command port: the first initialization word, or the end of an interrupt. -/
def command (value : BitVec 8) : Controller :=
  if value.getLsbD 4 then
    { c with
      requested := fun _ ↦ false
      masked := fun _ ↦ false
      autoEnd := false
      single := value.getLsbD 1
      needsMode := value.getLsbD 0
      stage := .vectors }
  else if value = 0x20#8 then c.endInterrupt
  else c

/-- A write to the data port: the rest of the initialization, or the mask. -/
def data (value : BitVec 8) : Controller :=
  match c.stage with
  | .vectors =>
    { c with
      vectorBase := value &&& 0xF8#8
      stage := if c.single then (if c.needsMode then .mode else .mask) else .cascade }
  | .cascade => { c with cascade := value, stage := if c.needsMode then .mode else .mask }
  | .mode => { c with autoEnd := value.getLsbD 1, stage := .mask }
  | .mask => { c with masked := fun line ↦ value.getLsbD line }

/-! ### Requests apart from the rest -/

/-- The chip with no line requesting. -/
def quiet : Controller :=
  { c with requested := fun _ ↦ false }

variable {c} {d : Controller} {line : Line}

@[simp] theorem quiet_setRequest (level : Bool) : (c.setRequest line level).quiet = c.quiet := rfl

/-- What a chip other than its requests is after a command does not depend on its requests. -/
theorem quiet_command (hquiet : c.quiet = d.quiet) (value : BitVec 8) :
    (c.command value).quiet = (d.command value).quiet := by
  simp only [quiet, mk.injEq, true_and] at hquiet
  obtain ⟨hmasked, hservice, hbase, hcascade, hauto, hsingle, hmode, hstage⟩ := hquiet
  rw [command, command]
  split_ifs
  · simp only [quiet, hservice, hbase, hcascade]
  · rw [endInterrupt, endInterrupt, hservice]
    split <;> simp only [quiet, hmasked, hservice, hbase, hcascade, hauto, hsingle, hmode, hstage]
  · simp only [quiet, hmasked, hservice, hbase, hcascade, hauto, hsingle, hmode, hstage]

theorem quiet_data (hquiet : c.quiet = d.quiet) (value : BitVec 8) :
    (c.data value).quiet = (d.data value).quiet := by
  simp only [quiet, mk.injEq, true_and] at hquiet
  obtain ⟨hmasked, hservice, hbase, hcascade, hauto, hsingle, hmode, hstage⟩ := hquiet
  rw [data, data, hstage]
  split <;> simp only [quiet, hmasked, hservice, hbase, hcascade, hauto, hsingle, hmode]

/-! ### A chip with one line in use -/

/-- All lines but one are masked, and no other is in service. -/
structure Only (c : Controller) (line : Line) (serving : Bool) : Prop where
  masked : c.masked = fun other ↦ decide (other ≠ line)
  inService : c.inService = fun other ↦ decide (other = line) && serving

variable {serving : Bool}

theorem firstLine_eq (line : Line) (serving : Bool) :
    firstLine (fun other ↦ decide (other = line) && serving) =
      if serving then some line else none := by
  cases serving
  · revert line
    decide
  · revert line
    decide

/-- Such a chip interrupts for its line alone, when it requests and is not in service. -/
theorem Only.candidate_eq (honly : c.Only line serving) :
    c.candidate = if c.requested line && !serving then some line else none := by
  have hlines : (fun other ↦ c.requested other && !c.masked other) =
      fun other ↦ decide (other = line) && c.requested line := by
    funext other
    rw [honly.masked]
    by_cases heq : other = line <;> simp [heq]
  rw [candidate, hlines, firstLine_eq, honly.inService, firstLine_eq]
  cases c.requested line <;> cases serving <;> simp

/-- Its interrupt ends. -/
theorem Only.endInterrupt (honly : c.Only line serving) : c.endInterrupt.Only line false := by
  rw [Controller.endInterrupt, honly.inService, firstLine_eq]
  cases serving with
  | false => exact honly
  | true =>
    refine ⟨honly.masked, funext fun other ↦ ?_⟩
    by_cases heq : other = line
    · simp [heq]
    · simp [heq]

/-- What its acknowledgement puts in service. -/
theorem Only.acknowledge (honly : c.Only line serving) (hauto : c.autoEnd = false) :
    c.acknowledge.Only line (serving || c.requested line) := by
  rw [Controller.acknowledge, honly.candidate_eq]
  cases serving with
  | true => cases c.requested line <;> exact honly
  | false =>
    cases c.requested line with
    | false => exact honly
    | true =>
      refine ⟨honly.masked, funext fun other ↦ ?_⟩
      change (if c.autoEnd then c.inService else Function.update c.inService line true) other = _
      rw [hauto, honly.inService]
      by_cases heq : other = line
      · simp [heq]
      · simp [heq]

/-- Its line changes. -/
theorem Only.setRequest (honly : c.Only line serving) (other : Line) (level : Bool) :
    (c.setRequest other level).Only line serving :=
  ⟨honly.masked, honly.inService⟩

end Controller

/-! ### Two chips -/

/-- Two chips, the slave behind a line of the master. -/
@[ext]
structure ControllerPair where
  master : Controller
  slave : Controller

namespace ControllerPair

variable (p : ControllerPair)

/-- The number that the pair answers an acknowledgement with, and the pair after it. The slave
answers for the line it is behind. -/
def acknowledge : BitVec 8 × ControllerPair :=
  let line := p.master.acknowledged
  if p.master.cascade.getLsbD line ∧ p.slave.cascade &&& 7#8 = BitVec.ofNat 8 line then
    (p.slave.vector p.slave.acknowledged, ⟨p.master.acknowledge, p.slave.acknowledge⟩)
  else (p.master.vector line, ⟨p.master.acknowledge, p.slave⟩)

end ControllerPair

end Colix.Foundation
