import Mathlib.Data.List.Induction
import Colix.Foundation.PackedRecord
import Colix.Types

/-!
# The interrupt descriptor table

`kernel/arch/x86_64/idt.c`: `idt_init` writes gates of 16 bytes, the handler's address in three
pieces, and loads the register that says where they are. `readGate` is what the processor makes of
the bytes when a vector is raised. `idt_serves` is the round trip: after `idt_init` and any calls of
`idt_set_gate`, the processor finds for every vector the gate that was set last, with the address as
it was given, and none where none was set. `user_gates` says which vectors a program may raise by an
`int` instruction of its own.
-/

set_option autoImplicit false
set_option relaxedAutoImplicit false

namespace Colix.Arch

open Foundation

/-! ### The source -/

/-- `IDT_SIZE`. -/
abbrev idtSize : ℕ := 256

/-- `GDT_KERNEL_CODE`. -/
abbrev gdtKernelCode : BitVec 16 := 0x08#16

/-- The fields of `idt_entry_t` as `set_gate` stores them. -/
def gateFields (handler : Word) (ist dpl : Byte) : List PackedField :=
  [⟨0, 16, (handler &&& 0xFFFF#64).setWidth 16⟩, ⟨2, 16, gdtKernelCode⟩, ⟨4, 8, ist &&& 0x7#8⟩,
    ⟨5, 8, 0x8E#8 ||| (dpl &&& 3#8) <<< 5⟩, ⟨6, 16, ((handler >>> 16) &&& 0xFFFF#64).setWidth 16⟩,
    ⟨8, 32, ((handler >>> 32) &&& 0xFFFFFFFF#64).setWidth 32⟩, ⟨12, 32, 0#32⟩]

/-- `set_gate` and `idt_set_gate`, on the table at `idt`. -/
def setGate (idt : ℕ) (memory : Memory) (num : Byte) (handler : Word) (ist dpl : Byte) : Memory :=
  storeFields memory (idt + num.toNat * 16) (gateFields handler ist dpl)

/-- The loop of `idt_init`, over the first `count` vectors. -/
def setIsrGates (idt : ℕ) (isrStubTable : Byte → Word) (count : ℕ) (memory : Memory) : Memory :=
  (List.range count).foldl (fun memory i ↦
    let num := BitVec.ofNat 8 i
    if isrStubTable num ≠ 0#64 then setGate idt memory num (isrStubTable num) 0#8 0#8
    else memory) memory

/-- `idtr_t`, as `idt_init` stores it. -/
def idtrFields (idt : ℕ) : List PackedField :=
  [⟨0, 16, BitVec.ofNat 16 (idtSize * 16 - 1)⟩, ⟨2, 64, BitVec.ofNat 64 idt⟩]

/-- `idt_init`, up to its `lidt`. -/
def idtInit (idt idtr : ℕ) (isrStubTable : Byte → Word) (memory : Memory) : Memory :=
  let memory := setIsrGates idt isrStubTable 48 memory
  let memory :=
    if isrStubTable 0x80#8 ≠ 0#64 then
      setGate idt memory 0x80#8 (isrStubTable 0x80#8) 0#8 3#8
    else memory
  storeFields memory idtr (idtrFields idt)

/-! ### The processor -/

/-- The interrupt descriptor table register. -/
structure Idtr where
  limit : BitVec 16
  base : Word

/-- `lidt`. -/
def lidt (memory : Memory) (address : ℕ) : Idtr where
  limit := load 16 memory address
  base := load 64 memory (address + 2)

/-- A gate, as the processor takes it apart. -/
@[ext]
structure Gate where
  handler : Word
  selector : BitVec 16
  ist : BitVec 3
  kind : BitVec 4
  dpl : BitVec 2
deriving DecidableEq

/-- The gate of a vector: none when it lies beyond the limit or is not present. -/
def readGate (register : Idtr) (memory : Memory) (vector : Byte) : Option Gate :=
  let address := register.base.toNat + vector.toNat * 16
  let typeAttr := load 8 memory (address + 5)
  if vector.toNat * 16 + 15 ≤ register.limit.toNat ∧ typeAttr.getLsbD 7 then
    some
      { handler := load 32 memory (address + 8) ++ load 16 memory (address + 6) ++
          load 16 memory (address + 0)
        selector := load 16 memory (address + 2)
        ist := (load 8 memory (address + 4)).setWidth 3
        kind := typeAttr.setWidth 4
        dpl := (typeAttr >>> 5).setWidth 2 }
  else none

/-- Ring 3 may raise a vector by `int` when its gate is of ring 3. -/
def UserMayRaise (register : Idtr) (memory : Memory) (vector : Byte) : Prop :=
  ∃ gate, readGate register memory vector = some gate ∧ gate.dpl = 3#2

/-! ### One gate -/

/-- The interrupt gate that a call of `set_gate` asks for. -/
def gateOf (handler : Word) (ist dpl : Byte) : Gate where
  handler := handler
  selector := gdtKernelCode
  ist := ist.setWidth 3
  kind := 0xE#4
  dpl := dpl.setWidth 2

section Gate

variable {memory : Memory} {idt : ℕ} {register : Idtr} {handler : Word} {ist dpl vector num : Byte}

theorem packed_gateFields (handler : Word) (ist dpl : Byte) :
    Packed 16 (gateFields handler ist dpl) := by
  refine ⟨?_, ?_, ?_⟩ <;> simp [gateFields, PackedField.last, PackedField.Apart]

/-- The three pieces make up the address. -/
theorem append_handler (handler : Word) :
    (((handler >>> 32) &&& 0xFFFFFFFF#64).setWidth 32 ++
      ((handler >>> 16) &&& 0xFFFF#64).setWidth 16 ++ (handler &&& 0xFFFF#64).setWidth 16 : Word) =
        handler := by
  have hupper : (handler >>> 32).setWidth 32 ++ (handler >>> 16).setWidth 16 =
      (handler >>> 16).setWidth 48 := by
    rw [show handler >>> 32 = handler >>> 16 >>> 16 from BitVec.shiftRight_add handler 16 16,
      append_pieces]
  rw [show 0xFFFFFFFF#64 = (BitVec.allOnes 32).setWidth 64 from rfl,
    show 0xFFFF#64 = (BitVec.allOnes 16).setWidth 64 from rfl, setWidth_and_allOnes,
    setWidth_and_allOnes, setWidth_and_allOnes, hupper]
  exact (append_pieces handler 48 16).trans (BitVec.setWidth_eq handler)

/-- The attribute byte is present, an interrupt gate, and of the ring asked for. -/
theorem typeAttr_spec (dpl : Byte) : (0x8E#8 ||| (dpl &&& 3#8) <<< 5).getLsbD 7 = true ∧
    (0x8E#8 ||| (dpl &&& 3#8) <<< 5).setWidth 4 = 0xE#4 ∧
      ((0x8E#8 ||| (dpl &&& 3#8) <<< 5) >>> 5).setWidth 2 = dpl.setWidth 2 := by
  revert dpl
  decide

theorem setWidth_ist (ist : Byte) : (ist &&& 0x7#8).setWidth 3 = ist.setWidth 3 := by
  revert ist
  decide

/-- The processor reads a gate as it was set. -/
theorem readGate_self (hbase : register.base.toNat = idt)
    (hlimit : register.limit.toNat = idtSize * 16 - 1) :
    readGate register (setGate idt memory num handler ist dpl) num =
      some (gateOf handler ist dpl) := by
  have hfield : ∀ field ∈ gateFields handler ist dpl,
      load field.width (setGate idt memory num handler ist dpl)
        (idt + num.toNat * 16 + field.offset) = field.value :=
    fun field hmem ↦ (packed_gateFields handler ist dpl).load_storeFields hmem
  simp only [gateFields, List.forall_mem_cons, List.not_mem_nil, false_imp_iff, implies_true,
    and_true] at hfield
  obtain ⟨hlow, hselector, hist, hattr, hmiddle, hhigh, -⟩ := hfield
  obtain ⟨hpresent, hkind, hdpl⟩ := typeAttr_spec dpl
  have hinside : num.toNat * 16 + 15 ≤ register.limit.toNat := by
    have hnum := num.isLt
    rw [hlimit]
    change _ ≤ 4095
    omega
  rw [readGate, hbase, hattr, if_pos ⟨hinside, hpresent⟩, hlow, hselector, hist, hmiddle, hhigh,
    hkind, hdpl, setWidth_ist, append_handler]
  rfl

/-- The other gates stay. -/
theorem readGate_of_ne (hbase : register.base.toNat = idt) (hne : vector ≠ num) :
    readGate register (setGate idt memory num handler ist dpl) vector =
      readGate register memory vector := by
  have hvector : vector.toNat ≠ num.toNat := fun heq ↦ hne (BitVec.eq_of_toNat_eq heq)
  have hkept : ∀ w offset, offset + w / 8 ≤ 16 →
      load w (setGate idt memory num handler ist dpl) (idt + vector.toNat * 16 + offset) =
        load w memory (idt + vector.toNat * 16 + offset) := by
    intro w offset hoffset
    exact (packed_gateFields handler ist dpl).load_outside (by omega)
  rw [readGate, readGate, hbase]
  simp only [hkept 8 5 (by decide), hkept 32 8 (by decide), hkept 16 6 (by decide),
    hkept 16 0 (by decide), hkept 16 2 (by decide), hkept 8 4 (by decide)]

/-- `set_gate` on what the processor reads. -/
theorem readGate_setGate (hbase : register.base.toNat = idt)
    (hlimit : register.limit.toNat = idtSize * 16 - 1) :
    readGate register (setGate idt memory num handler ist dpl) =
      Function.update (readGate register memory) num (some (gateOf handler ist dpl)) := by
  funext vector
  rcases eq_or_ne vector num with rfl | hne
  · rw [Function.update_self, readGate_self hbase hlimit]
  · rw [Function.update_of_ne hne, readGate_of_ne hbase hne]

/-- What the processor reads depends on the bytes of the table. -/
theorem readGate_congr {next : Memory} (hbase : register.base.toNat = idt)
    (hagree : ∀ position, idt ≤ position → position < idt + idtSize * 16 →
      next position = memory position) : readGate register next = readGate register memory := by
  funext vector
  have hvector := vector.isLt
  have hsame : ∀ w offset, offset + w / 8 ≤ 16 →
      load w next (idt + vector.toNat * 16 + offset) =
        load w memory (idt + vector.toNat * 16 + offset) := by
    intro w offset hoffset
    refine load_congr fun position hge hlt ↦ hagree position (by omega) ?_
    change position < idt + 4096
    omega
  rw [readGate, readGate, hbase]
  simp only [hsame 8 5 (by decide), hsame 32 8 (by decide), hsame 16 6 (by decide),
    hsame 16 0 (by decide), hsame 16 2 (by decide), hsame 8 4 (by decide)]

/-- A cleared table has no gates. -/
theorem readGate_of_zero (hbase : register.base.toNat = idt)
    (hzero : ∀ position, idt ≤ position → position < idt + idtSize * 16 →
      memory position = 0#8) : readGate register memory = fun _ ↦ none := by
  have hclear : readGate register memory = readGate register fun _ ↦ 0#8 :=
    readGate_congr hbase hzero
  rw [hclear]
  funext vector
  rw [readGate, load_zero]
  exact if_neg fun hpresent ↦ absurd hpresent.2 (by simp)

end Gate

/-! ### The table -/

/-- A call of `idt_set_gate`. -/
structure GateCall where
  num : Byte
  handler : Word
  ist : Byte
  dpl : Byte

/-- The gates that `idt_init` makes: one for each stub of the vectors up to 47, and the one of
system calls, which is of ring 3. -/
def initialGates (isrStubTable : Byte → Word) (vector : Byte) : Option Gate :=
  if (vector.toNat < 48 ∨ vector = 0x80#8) ∧ isrStubTable vector ≠ 0#64 then
    some (gateOf (isrStubTable vector) 0#8 (if vector = 0x80#8 then 3#8 else 0#8))
  else none

/-- The gates after further calls, each of which replaces one. -/
def gatesAfter (isrStubTable : Byte → Word) (calls : List GateCall) : Byte → Option Gate :=
  calls.foldl (fun gates call ↦
    Function.update gates call.num (some (gateOf call.handler call.ist call.dpl)))
    (initialGates isrStubTable)

/-- The table after `idt_init` and further calls of `idt_set_gate`. -/
def tableAfter (idt idtr : ℕ) (isrStubTable : Byte → Word) (calls : List GateCall)
    (memory : Memory) : Memory :=
  calls.foldl (fun memory call ↦ setGate idt memory call.num call.handler call.ist call.dpl)
    (idtInit idt idtr isrStubTable memory)

section Table

variable {memory : Memory} {idt idtr : ℕ} {register : Idtr} {isrStubTable : Byte → Word}
  {calls : List GateCall}

/-- The gates after the loop has set the first `count` vectors. -/
theorem readGate_setIsrGates (isrStubTable : Byte → Word) (hbase : register.base.toNat = idt)
    (hlimit : register.limit.toNat = idtSize * 16 - 1)
    (hzero : ∀ position, idt ≤ position → position < idt + idtSize * 16 → memory position = 0#8)
    {count : ℕ} (hcount : count ≤ 128) :
    readGate register (setIsrGates idt isrStubTable count memory) = fun vector ↦
      if vector.toNat < count ∧ isrStubTable vector ≠ 0#64 then
        some (gateOf (isrStubTable vector) 0#8 0#8)
      else none := by
  induction count with
  | zero =>
    refine (readGate_of_zero hbase hzero).trans (funext fun vector ↦ ?_)
    rw [if_neg fun hless ↦ Nat.not_lt_zero _ hless.1]
  | succ count ih =>
    have hnum : (BitVec.ofNat 8 count).toNat = count := by
      rw [BitVec.toNat_ofNat, Nat.mod_eq_of_lt (by omega)]
    have hbefore := ih (by omega)
    rw [setIsrGates, List.range_succ, List.foldl_append, ← setIsrGates]
    simp only [List.foldl_cons, List.foldl_nil]
    funext vector
    have hself : vector.toNat = count ↔ vector = BitVec.ofNat 8 count := by
      rw [← BitVec.toNat_inj, hnum]
    split_ifs with hstub hvector hvector
    · rw [readGate_setGate hbase hlimit, hbefore]
      rcases eq_or_ne vector (BitVec.ofNat 8 count) with rfl | hne
      · rw [Function.update_self]
      · have hless : vector.toNat < count := by
          have hcountNe := hself.not.mpr hne
          omega
        rw [Function.update_of_ne hne, if_pos ⟨hless, hvector.2⟩]
    · have hne : vector ≠ BitVec.ofNat 8 count := by
        rintro rfl
        exact hvector ⟨by omega, hstub⟩
      rw [readGate_setGate hbase hlimit, Function.update_of_ne hne, hbefore]
      exact if_neg fun hless ↦ hvector ⟨by omega, hless.2⟩
    · rw [hbefore]
      have hne : vector.toNat ≠ count := by
        intro heq
        rw [hself.mp heq] at hvector
        exact hstub hvector.2
      exact if_pos ⟨by omega, hvector.2⟩
    · rw [hbefore]
      exact if_neg fun hless ↦ hvector ⟨by omega, hless.2⟩

theorem packed_idtrFields (idt : ℕ) : Packed 10 (idtrFields idt) := by
  refine ⟨?_, ?_, ?_⟩ <;> simp [idtrFields, PackedField.last, PackedField.Apart]

/-- `lidt` loads the limit and the base of the table. -/
theorem lidt_idtInit (idtr : ℕ) (isrStubTable : Byte → Word) (memory : Memory)
    (hidt : idt + idtSize * 16 ≤ 2 ^ 64) :
    (lidt (idtInit idt idtr isrStubTable memory) idtr).base.toNat = idt ∧
      (lidt (idtInit idt idtr isrStubTable memory) idtr).limit.toNat = idtSize * 16 - 1 := by
  have hfield : ∀ field ∈ idtrFields idt,
      load field.width (idtInit idt idtr isrStubTable memory) (idtr + field.offset) = field.value :=
    fun field hmem ↦ (packed_idtrFields idt).load_storeFields hmem
  simp only [idtrFields, List.forall_mem_cons, List.not_mem_nil, false_imp_iff, implies_true,
    and_true] at hfield
  obtain ⟨hlimit, hbase⟩ := hfield
  have hsmall : idt + 4096 ≤ 2 ^ 64 := hidt
  refine ⟨?_, ?_⟩
  · rw [lidt, hbase, BitVec.toNat_ofNat, Nat.mod_eq_of_lt (by omega)]
  · rw [lidt]
    exact congrArg BitVec.toNat hlimit

/-- The gates after `idt_init`. -/
theorem readGate_idtInit (hbase : register.base.toNat = idt)
    (hlimit : register.limit.toNat = idtSize * 16 - 1)
    (hzero : ∀ position, idt ≤ position → position < idt + idtSize * 16 → memory position = 0#8)
    (hidtr : idtr + 10 ≤ idt ∨ idt + idtSize * 16 ≤ idtr) :
    readGate register (idtInit idt idtr isrStubTable memory) = initialGates isrStubTable := by
  have hloop := readGate_setIsrGates isrStubTable hbase hlimit hzero (by decide : 48 ≤ 128)
  have hstored : ∀ stored : Memory,
      readGate register (storeFields stored idtr (idtrFields idt)) = readGate register stored := by
    refine fun stored ↦ readGate_congr hbase fun position hge hlt ↦ ?_
    exact storeFields_apply (packed_idtrFields idt).inside (by omega)
  rw [idtInit, hstored]
  funext vector
  rw [initialGates]
  rcases eq_or_ne vector 0x80#8 with rfl | hne
  · by_cases hstub : isrStubTable 0x80#8 ≠ 0#64
    · rw [if_pos hstub, readGate_setGate hbase hlimit, Function.update_self,
        if_pos ⟨Or.inr rfl, hstub⟩, if_pos rfl]
    · rw [if_neg hstub, if_neg fun hset ↦ hstub hset.2, hloop]
      exact if_neg fun hless ↦ hstub hless.2
  · have hsame : readGate register (if isrStubTable 0x80#8 ≠ 0#64 then
        setGate idt (setIsrGates idt isrStubTable 48 memory) 0x80#8 (isrStubTable 0x80#8) 0#8 3#8
        else setIsrGates idt isrStubTable 48 memory) vector =
          readGate register (setIsrGates idt isrStubTable 48 memory) vector := by
      split_ifs with hstub
      · rw [readGate_setGate hbase hlimit, Function.update_of_ne hne]
      · rfl
    rw [hsame, hloop, if_neg hne]
    simp only [hne, or_false]

/-- The gates after further calls. -/
theorem readGate_tableAfter (hbase : register.base.toNat = idt)
    (hlimit : register.limit.toNat = idtSize * 16 - 1)
    (hzero : ∀ position, idt ≤ position → position < idt + idtSize * 16 → memory position = 0#8)
    (hidtr : idtr + 10 ≤ idt ∨ idt + idtSize * 16 ≤ idtr) :
    readGate register (tableAfter idt idtr isrStubTable calls memory) =
      gatesAfter isrStubTable calls := by
  induction calls using List.reverseRecOn with
  | nil => exact readGate_idtInit hbase hlimit hzero hidtr
  | append_singleton calls call ih =>
    rw [tableAfter, gatesAfter, List.foldl_append, List.foldl_append, ← tableAfter, ← gatesAfter,
      List.foldl_cons, List.foldl_nil, List.foldl_cons, List.foldl_nil,
      readGate_setGate hbase hlimit, ih]

/-- Calls that ask for no gate of ring 3 and keep the vector of system calls leave that as the one
that ring 3 may raise. -/
theorem gatesAfter_user (hsyscall : isrStubTable 0x80#8 ≠ 0#64)
    (hcalls : ∀ call ∈ calls, call.num ≠ 0x80#8 ∧ call.dpl.setWidth 2 ≠ 3#2) (vector : Byte) :
    (∃ gate, gatesAfter isrStubTable calls vector = some gate ∧ gate.dpl = 3#2) ↔
      vector = 0x80#8 := by
  induction calls using List.reverseRecOn with
  | nil =>
    rw [gatesAfter, List.foldl_nil, initialGates]
    constructor
    · rintro ⟨gate, hgate, hring⟩
      by_contra hne
      rw [if_neg hne] at hgate
      split_ifs at hgate
      rw [← Option.some.inj hgate] at hring
      exact absurd (show (0#8 : Byte).setWidth 2 = 3#2 from hring) (by decide)
    · rintro rfl
      rw [if_pos ⟨Or.inr rfl, hsyscall⟩]
      exact ⟨_, rfl, rfl⟩
  | append_singleton calls call ih =>
    have hbefore := ih fun other hother ↦ hcalls other (List.mem_append_left _ hother)
    obtain ⟨hnum, hdpl⟩ := hcalls call (List.mem_append_right _ List.mem_cons_self)
    rw [gatesAfter, List.foldl_append, ← gatesAfter, List.foldl_cons, List.foldl_nil]
    rcases eq_or_ne vector call.num with rfl | hne
    · rw [Function.update_self]
      refine iff_of_false ?_ hnum
      rintro ⟨gate, hgate, hring⟩
      rw [← Option.some.inj hgate] at hring
      exact hdpl hring
    · rw [Function.update_of_ne hne]
      exact hbefore

/-- After `idt_init` and any calls of `idt_set_gate`, the processor finds for every vector the gate
set last, with the address as given, and none where none was set. When the calls ask for no gate of
ring 3 and keep the vector of system calls, that is the one that ring 3 may raise. -/
theorem idt_serves (isrStubTable : Byte → Word) (calls : List GateCall)
    (hidt : idt + idtSize * 16 ≤ 2 ^ 64)
    (hzero : ∀ position, idt ≤ position → position < idt + idtSize * 16 → memory position = 0#8)
    (hidtr : idtr + 10 ≤ idt ∨ idt + idtSize * 16 ≤ idtr) :
    readGate (lidt (idtInit idt idtr isrStubTable memory) idtr)
        (tableAfter idt idtr isrStubTable calls memory) = gatesAfter isrStubTable calls ∧
      (isrStubTable 0x80#8 ≠ 0#64 →
        (∀ call ∈ calls, call.num ≠ 0x80#8 ∧ call.dpl.setWidth 2 ≠ 3#2) → ∀ vector,
          UserMayRaise (lidt (idtInit idt idtr isrStubTable memory) idtr)
            (tableAfter idt idtr isrStubTable calls memory) vector ↔ vector = 0x80#8) := by
  obtain ⟨hbase, hlimit⟩ := lidt_idtInit idtr isrStubTable memory hidt
  have hgates : readGate (lidt (idtInit idt idtr isrStubTable memory) idtr)
      (tableAfter idt idtr isrStubTable calls memory) = gatesAfter isrStubTable calls :=
    readGate_tableAfter hbase hlimit hzero hidtr
  refine ⟨hgates, fun hsyscall hcalls vector ↦ ?_⟩
  rw [UserMayRaise, hgates]
  exact gatesAfter_user hsyscall hcalls vector

end Table

/-- The stubs of `isr_stub_table`, 16 bytes apart. -/
def sampleStubs (vector : Byte) : Word :=
  if vector.toNat < 48 ∨ vector = 0x80#8 then 0x100000#64 + vector.setWidth 64 * 16#64 else 0#64

/-- The timer's gate is replaced after `idt_init`. -/
theorem idt_serves_timer :
    readGate (lidt (idtInit 0x110000 0x120000 sampleStubs fun _ ↦ 0#8) 0x120000)
        (tableAfter 0x110000 0x120000 sampleStubs [⟨0x20#8, 0xFFFF800012345678#64, 1#8, 0#8⟩]
          fun _ ↦ 0#8) 0x20#8 =
      some ⟨0xFFFF800012345678#64, 0x08#16, 1#3, 0xE#4, 0#2⟩ := by
  have hserves := (idt_serves sampleStubs
    [⟨0x20#8, 0xFFFF800012345678#64, 1#8, 0#8⟩]
    (show 0x110000 + idtSize * 16 ≤ 2 ^ 64 by decide) (fun _ _ _ ↦ rfl)
    (by decide : 0x120000 + 10 ≤ 0x110000 ∨ 0x110000 + idtSize * 16 ≤ 0x120000)).1
  rw [hserves]
  rfl

end Colix.Arch
