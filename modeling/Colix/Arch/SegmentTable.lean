import Colix.Arch.UserEntry
import Colix.Foundation.PackedRecord

/-!
# The segment table in memory

`kernel/arch/x86_64/gdt.c` byte by byte: `gdt_init` stores six descriptors field by field, builds
the descriptor of the TSS beside them, copies it behind the array, loads the registers, and
`gdt_set_tss_rsp0` stores the stack that the processor takes when it leaves ring 3.

`Arch.UserEntry` has the table as six descriptors, and the scheduler's model the stack as a field.
`gdt_serves` is that this is what the processor reads from the bytes, after `gdt_init` and any calls
of `gdt_set_tss_rsp0`.
-/

set_option autoImplicit false
set_option relaxedAutoImplicit false

namespace Colix.Arch

open Foundation

/-! ### The source -/

/-- Where the linker put the variables of `gdt.c`. They have no byte in common, and `gdtr` none with
the sixteen bytes behind `gdt`, which `gdt_init` stores to as well. -/
structure GdtLayout where
  gdt : ℕ
  gdtTss : ℕ
  tss : ℕ
  gdtr : ℕ
  gdt_fits : gdt + 64 ≤ 2 ^ 64
  tss_fits : tss + 104 ≤ 2 ^ 64
  gdtTss_apart : gdtTss + 16 ≤ gdt ∨ gdt + 48 ≤ gdtTss
  tss_apart : tss + 104 ≤ gdt ∨ gdt + 48 ≤ tss
  gdtr_apart : gdtr + 10 ≤ gdt ∨ gdt + 64 ≤ gdtr

/-- The fields of `gdt_entry_t` as `set_entry` stores them. -/
def entryFields (base limit : Word32) (access gran : Byte) : List PackedField :=
  [⟨2, 16, (base &&& 0xFFFF#32).setWidth 16⟩, ⟨4, 8, (base >>> 16 &&& 0xFF#32).setWidth 8⟩,
    ⟨7, 8, (base >>> 24 &&& 0xFF#32).setWidth 8⟩, ⟨0, 16, (limit &&& 0xFFFF#32).setWidth 16⟩,
    ⟨6, 8, (limit >>> 16 &&& 0x0F#32).setWidth 8 ||| (gran &&& 0xF0#8)⟩, ⟨5, 8, access⟩]

/-- `set_entry`, on the table at `gdt`. -/
def storeEntry (gdt : ℕ) (memory : Memory) (i : ℕ) (base limit : Word32)
    (access gran : Byte) : Memory :=
  storeFields memory (gdt + i * 8) (entryFields base limit access gran)

/-- `sizeof(tss)`. -/
abbrev tssSize : ℕ := 104

/-- The fields of `gdt_tss_entry_t` as `gdt_init` stores them. -/
def tssFields (tss : ℕ) : List PackedField :=
  let tssBase : Word := BitVec.ofNat 64 tss
  let tssLimit : Word32 := BitVec.ofNat 32 (tssSize - 1)
  [⟨0, 16, (tssLimit &&& 0xFFFF#32).setWidth 16⟩, ⟨2, 16, (tssBase &&& 0xFFFF#64).setWidth 16⟩,
    ⟨4, 8, (tssBase >>> 16 &&& 0xFF#64).setWidth 8⟩, ⟨5, 8, 0x89#8⟩,
    ⟨6, 8, (tssLimit >>> 16 &&& 0x0F#32).setWidth 8⟩,
    ⟨7, 8, (tssBase >>> 24 &&& 0xFF#64).setWidth 8⟩, ⟨8, 32, (tssBase >>> 32).setWidth 32⟩,
    ⟨12, 32, 0#32⟩]

/-- `gdtr_t`, as `gdt_init` stores it. -/
def gdtrFields (gdt : ℕ) : List PackedField :=
  [⟨0, 16, BitVec.ofNat 16 (gdtNormalEntries * 8 + 16 - 1)⟩, ⟨2, 64, BitVec.ofNat 64 gdt⟩]

/-- The six calls of `set_entry`. -/
def storeEntries (gdt : ℕ) (memory : Memory) : Memory :=
  let memory := storeEntry gdt memory 0 0#32 0#32 0#8 0#8
  let memory := storeEntry gdt memory 1 0#32 0xFFFFF#32 0x9A#8 0xA0#8
  let memory := storeEntry gdt memory 2 0#32 0xFFFFF#32 0x92#8 0xC0#8
  let memory := storeEntry gdt memory 3 0#32 0xFFFFF#32 0xFA#8 0xCF#8
  let memory := storeEntry gdt memory 4 0#32 0xFFFFF#32 0xF2#8 0xC0#8
  storeEntry gdt memory 5 0#32 0xFFFFF#32 0xFA#8 0xA0#8

/-- `gdt_init`, up to its `lgdt`. -/
def gdtInitStores (layout : GdtLayout) (memory : Memory) : Memory :=
  let memory := storeEntries layout.gdt memory
  let memory := storeFields memory layout.gdtTss (tssFields layout.tss)
  let memory := copyBytes memory (layout.gdt + gdtNormalEntries * 8) layout.gdtTss 16
  storeFields memory layout.gdtr (gdtrFields layout.gdt)

/-- `gdt_set_tss_rsp0`. -/
def gdtSetTssRsp0 (tss : ℕ) (memory : Memory) (rsp0 : Word) : Memory :=
  store memory (tss + 4) rsp0

/-! ### The processor -/

/-- The register of a descriptor table. -/
structure Gdtr where
  limit : BitVec 16
  base : Word

/-- `lgdt`. -/
def lgdt (memory : Memory) (address : ℕ) : Gdtr where
  limit := load 16 memory address
  base := load 64 memory (address + 2)

/-- A descriptor in memory. -/
def readEntry (memory : Memory) (address : ℕ) : GdtEntry where
  limitLow := load 16 memory (address + 0)
  baseLow := load 16 memory (address + 2)
  baseMid := load 8 memory (address + 4)
  access := load 8 memory (address + 5)
  granularity := load 8 memory (address + 6)
  baseHigh := load 8 memory (address + 7)

/-- The descriptor that a selector names: bits 3 to 15 are the index, and bit 2 is clear for the
GDT. -/
def readDescriptor (register : Gdtr) (memory : Memory) (selector : Word) : Option GdtEntry :=
  let index := (selector &&& 0xFFFF#64) >>> 3
  if selector.getLsbD 2 = false ∧ index.toNat * 8 + 7 ≤ register.limit.toNat then
    some (readEntry memory (register.base.toNat + index.toNat * 8))
  else none

/-- The task register: where the TSS is, and its limit. -/
structure TaskRegister where
  base : Word
  limit : BitVec 20

/-- `ltr`: the register and the memory after it, when the selector names the descriptor of an
available TSS, which is then busy. -/
def ltr (register : Gdtr) (memory : Memory) (selector : BitVec 16) :
    Option (TaskRegister × Memory) :=
  let index := selector >>> 3
  let address := register.base.toNat + index.toNat * 8
  let access := load 8 memory (address + 5)
  if index.toNat * 8 + 15 ≤ register.limit.toNat ∧ access &&& 0x9F#8 = 0x89#8 then
    some
      ({ base := load 32 memory (address + 8) ++ load 8 memory (address + 7) ++
          load 8 memory (address + 4) ++ load 16 memory (address + 2)
         limit := (load 8 memory (address + 6)).setWidth 4 ++ load 16 memory (address + 0) },
        store memory (address + 5) (access ||| 2#8))
  else none

/-- The stack that the processor takes when it leaves ring 3. -/
def TaskRegister.rsp0 (task : TaskRegister) (memory : Memory) : Word :=
  load 64 memory (task.base.toNat + 4)

/-! ### The six descriptors -/

/-- The table in memory. -/
def readGdt (memory : Memory) (gdt : ℕ) : Gdt := fun i ↦ readEntry memory (gdt + i * 8)

section Entries

variable {memory next : Memory} {gdt : ℕ}

theorem packed_entryFields (base limit : Word32) (access gran : Byte) :
    Packed 8 (entryFields base limit access gran) := by
  refine ⟨?_, ?_, ?_⟩ <;> simp [entryFields, PackedField.last, PackedField.Apart]

/-- The table depends on its 48 bytes. -/
theorem readGdt_congr (hagree : ∀ position, gdt ≤ position → position < gdt + 48 →
    next position = memory position) : readGdt next gdt = readGdt memory gdt := by
  funext i
  have hi : i.val < 6 := i.isLt
  have hsame : ∀ w offset, offset + w / 8 ≤ 8 →
      load w next (gdt + i * 8 + offset) = load w memory (gdt + i * 8 + offset) := by
    intro w offset hoffset
    exact load_congr fun position hge hlt ↦ hagree position (by omega) (by omega)
  rw [readGdt, readGdt, readEntry, readEntry, hsame 16 0 (by decide), hsame 16 2 (by decide),
    hsame 8 4 (by decide), hsame 8 5 (by decide), hsame 8 6 (by decide), hsame 8 7 (by decide)]

/-- `set_entry` in memory is `setEntry` on the table. -/
theorem readGdt_storeEntry {i : ℕ} (hi : i < gdtNormalEntries) (base limit : Word32)
    (access gran : Byte) :
    readGdt (storeEntry gdt memory i base limit access gran) gdt =
      setEntry (readGdt memory gdt) ⟨i, hi⟩ base limit access gran := by
  have hpacked := packed_entryFields base limit access gran
  funext j
  by_cases heq : j = ⟨i, hi⟩
  · subst heq
    have hfield : ∀ field ∈ entryFields base limit access gran,
        load field.width (storeEntry gdt memory i base limit access gran)
          (gdt + i * 8 + field.offset) = field.value :=
      fun field hmem ↦ hpacked.load_storeFields hmem
    simp only [entryFields, List.forall_mem_cons, List.not_mem_nil, false_imp_iff, implies_true,
      and_true] at hfield
    obtain ⟨hbaseLow, hbaseMid, hbaseHigh, hlimitLow, hgranularity, haccess⟩ := hfield
    rw [setEntry, Function.update_self, readGdt, readEntry, hbaseLow, hbaseMid, hbaseHigh,
      hlimitLow, hgranularity, haccess]
  · have hne : j.val ≠ i := fun hval ↦ heq (Fin.ext hval)
    have hsame : ∀ w offset, offset + w / 8 ≤ 8 →
        load w (storeEntry gdt memory i base limit access gran) (gdt + j * 8 + offset) =
          load w memory (gdt + j * 8 + offset) := by
      intro w offset hoffset
      exact hpacked.load_outside (by omega)
    rw [setEntry, Function.update_of_ne heq, readGdt, readGdt, readEntry, readEntry,
      hsame 16 0 (by decide), hsame 16 2 (by decide), hsame 8 4 (by decide), hsame 8 5 (by decide),
      hsame 8 6 (by decide), hsame 8 7 (by decide)]

/-- The six calls in memory are those of the model. -/
theorem readGdt_storeEntries :
    readGdt (storeEntries gdt memory) gdt = gdtInit (readGdt memory gdt) := by
  rw [storeEntries, readGdt_storeEntry (show 5 < 6 by decide),
    readGdt_storeEntry (show 4 < 6 by decide), readGdt_storeEntry (show 3 < 6 by decide),
    readGdt_storeEntry (show 2 < 6 by decide), readGdt_storeEntry (show 1 < 6 by decide),
    readGdt_storeEntry (show 0 < 6 by decide)]
  rfl

/-- The processor finds the six descriptors by their selectors. -/
theorem readDescriptor_eq {register : Gdtr} {selector : Word} (hbase : register.base.toNat = gdt)
    (hlimit : 47 ≤ register.limit.toNat)
    (hindex : ((selector &&& 0xFFFF#64) >>> 3).toNat < gdtNormalEntries) :
    readDescriptor register memory selector = descriptorOf (readGdt memory gdt) selector := by
  have hinside : ((selector &&& 0xFFFF#64) >>> 3).toNat * 8 + 7 ≤ register.limit.toNat := by
    have hsix : ((selector &&& 0xFFFF#64) >>> 3).toNat < 6 := hindex
    omega
  rw [readDescriptor, descriptorOf, hbase]
  by_cases htable : selector.getLsbD 2 = false
  · rw [if_pos ⟨htable, hinside⟩, dif_pos ⟨htable, hindex⟩]
    rfl
  · rw [if_neg fun hboth ↦ htable hboth.1, dif_neg fun hboth ↦ htable hboth.1]

end Entries

/-! ### The descriptor of the TSS -/

theorem packed_tssFields (tss : ℕ) : Packed 16 (tssFields tss) := by
  refine ⟨?_, ?_, ?_⟩ <;> simp [tssFields, PackedField.last, PackedField.Apart]

theorem packed_gdtrFields (gdt : ℕ) : Packed 10 (gdtrFields gdt) := by
  refine ⟨?_, ?_, ?_⟩ <;> simp [gdtrFields, PackedField.last, PackedField.Apart]

/-- The four pieces make up the address. -/
theorem append_tssBase (base : Word) :
    ((base >>> 32).setWidth 32 ++ (base >>> 24 &&& 0xFF#64).setWidth 8 ++
      (base >>> 16 &&& 0xFF#64).setWidth 8 ++ (base &&& 0xFFFF#64).setWidth 16 : Word) = base := by
  have hbyte : 0xFF#64 = (BitVec.allOnes 8).setWidth 64 := rfl
  have hword : 0xFFFF#64 = (BitVec.allOnes 16).setWidth 64 := rfl
  have hhigh : (base >>> 32).setWidth 32 ++ (base >>> 24).setWidth 8 =
      (base >>> 24).setWidth 40 := by
    rw [show base >>> 32 = base >>> 24 >>> 8 from BitVec.shiftRight_add base 24 8, append_pieces]
  have hupper : (base >>> 24).setWidth 40 ++ (base >>> 16).setWidth 8 =
      (base >>> 16).setWidth 48 := by
    rw [show base >>> 24 = base >>> 16 >>> 8 from BitVec.shiftRight_add base 16 8, append_pieces]
  rw [hbyte, hword, setWidth_and_allOnes, setWidth_and_allOnes, setWidth_and_allOnes, hhigh, hupper]
  exact (append_pieces base 48 16).trans (BitVec.setWidth_eq base)

section Init

variable (layout : GdtLayout) (memory : Memory)

/-- `lgdt` loads the limit and the base of the table. -/
theorem lgdt_gdtInitStores :
    (lgdt (gdtInitStores layout memory) layout.gdtr).base.toNat = layout.gdt ∧
      (lgdt (gdtInitStores layout memory) layout.gdtr).limit = 63#16 := by
  have hfield : ∀ field ∈ gdtrFields layout.gdt,
      load field.width (gdtInitStores layout memory) (layout.gdtr + field.offset) = field.value :=
    fun field hmem ↦ (packed_gdtrFields layout.gdt).load_storeFields hmem
  simp only [gdtrFields, List.forall_mem_cons, List.not_mem_nil, false_imp_iff, implies_true,
    and_true] at hfield
  obtain ⟨hlimit, hbase⟩ := hfield
  have hfits := layout.gdt_fits
  refine ⟨?_, hlimit⟩
  rw [lgdt, hbase, BitVec.toNat_ofNat, Nat.mod_eq_of_lt (by omega)]

/-- The six descriptors after `gdt_init`. -/
theorem readGdt_gdtInitStores :
    readGdt (gdtInitStores layout memory) layout.gdt = gdtInit (readGdt memory layout.gdt) := by
  have htss := layout.gdtTss_apart
  have hgdtr := layout.gdtr_apart
  refine (readGdt_congr fun position hge hlt ↦ ?_).trans readGdt_storeEntries
  have htail : position < layout.gdt + gdtNormalEntries * 8 := hlt
  rw [gdtInitStores, storeFields_apply (packed_gdtrFields layout.gdt).inside (by omega),
    copyBytes_apply_of_disjoint (Or.inl htail),
    storeFields_apply (packed_tssFields layout.tss).inside (by omega)]

/-- The fields of the descriptor of the TSS, where the processor looks for it. -/
theorem load_tssDescriptor {field : PackedField} (hmem : field ∈ tssFields layout.tss) :
    load field.width (gdtInitStores layout memory) (layout.gdt + 48 + field.offset) =
      field.value := by
  have hpacked := packed_tssFields layout.tss
  have hlast : field.offset + field.width / 8 ≤ 16 := hpacked.inside field hmem
  have htss := layout.gdtTss_apart
  have hgdtr := layout.gdtr_apart
  have hplace : layout.gdt + 48 ≤ layout.gdtTss ∨ layout.gdtTss + 16 ≤ layout.gdt + 48 := by
    omega
  rw [gdtInitStores, (packed_gdtrFields layout.gdt).load_outside (by omega)]
  exact (load_copied hlast hplace).trans (hpacked.load_storeFields hmem)

/-- `ltr(0x30)` finds the TSS, and marks its descriptor behind the six. -/
theorem ltr_gdtInitStores : ∃ task,
    ltr (lgdt (gdtInitStores layout memory) layout.gdtr) (gdtInitStores layout memory) 0x30#16 =
        some (task, store (gdtInitStores layout memory) (layout.gdt + 53) 0x8B#8) ∧
      task.base.toNat = layout.tss ∧ task.limit = 103#20 := by
  have hfield : ∀ field ∈ tssFields layout.tss,
      load field.width (gdtInitStores layout memory) (layout.gdt + 48 + field.offset) =
        field.value := fun field hmem ↦ load_tssDescriptor layout memory hmem
  simp only [tssFields, List.forall_mem_cons, List.not_mem_nil, false_imp_iff, implies_true,
    and_true] at hfield
  obtain ⟨hlimitLow, hbaseLow, hbaseMid1, haccess, hflags, hbaseMid2, hbaseHigh, -⟩ := hfield
  obtain ⟨hbase, hlimit⟩ := lgdt_gdtInitStores layout memory
  have hindex : ((0x30#16 : BitVec 16) >>> 3).toNat * 8 = 48 := rfl
  have hfits := layout.tss_fits
  rw [ltr]
  rw [hindex, hbase, hlimit, haccess, hlimitLow, hbaseLow, hbaseMid1, hflags, hbaseMid2, hbaseHigh,
    append_tssBase, if_pos ⟨by decide, by decide⟩]
  refine ⟨_, rfl, ?_, rfl⟩
  rw [BitVec.toNat_ofNat, Nat.mod_eq_of_lt (by omega)]

/-- After `gdt_init` and any calls of `gdt_set_tss_rsp0`, the processor finds by every selector of
the six descriptors the one of the model, `ltr` has found the TSS, and the stack that an interrupt
out of ring 3 goes to is the one set last. -/
theorem gdt_serves (calls : List Word) : ∃ task busy,
    ltr (lgdt (gdtInitStores layout memory) layout.gdtr) (gdtInitStores layout memory) 0x30#16 =
        some (task, busy) ∧
      task.base.toNat = layout.tss ∧ task.limit = 103#20 ∧
      (∀ selector : Word, ((selector &&& 0xFFFF#64) >>> 3).toNat < gdtNormalEntries →
        readDescriptor (lgdt (gdtInitStores layout memory) layout.gdtr)
            (calls.foldl (gdtSetTssRsp0 layout.tss) busy) selector =
          descriptorOf (gdtInit (readGdt memory layout.gdt)) selector) ∧
      ∀ rsp0 ∈ calls.getLast?,
        task.rsp0 (calls.foldl (gdtSetTssRsp0 layout.tss) busy) = rsp0 := by
  obtain ⟨task, hltr, hbase, hlimit⟩ := ltr_gdtInitStores layout memory
  obtain ⟨hgdt, hsize⟩ := lgdt_gdtInitStores layout memory
  have htss := layout.tss_apart
  have hkept : ∀ calls : List Word, ∀ position, layout.gdt ≤ position →
      position < layout.gdt + 48 → calls.foldl (gdtSetTssRsp0 layout.tss)
        (store (gdtInitStores layout memory) (layout.gdt + 53) 0x8B#8) position =
          gdtInitStores layout memory position := by
    intro calls position hge hlt
    induction calls using List.reverseRecOn with
    | nil => exact store_apply_of_disjoint _ (by omega)
    | append_singleton calls rsp0 ih =>
      rw [List.foldl_append, List.foldl_cons, List.foldl_nil, gdtSetTssRsp0,
        store_apply_of_disjoint _ (by omega), ih]
  refine ⟨task, _, hltr, hbase, hlimit, fun selector hindex ↦ ?_, fun rsp0 hlast ↦ ?_⟩
  · have hlarge : 47 ≤ (lgdt (gdtInitStores layout memory) layout.gdtr).limit.toNat := by
      rw [hsize]
      decide
    rw [readDescriptor_eq hgdt hlarge hindex, readGdt_congr (hkept calls),
      readGdt_gdtInitStores]
  · obtain ⟨before, rfl⟩ := List.getLast?_eq_some_iff.mp hlast
    rw [TaskRegister.rsp0, hbase, List.foldl_append]
    exact load_store (by decide) rsp0

end Init

/-- A layout with the variables in their order, `gdt_tss` where its descriptor is copied to. -/
def orderedLayout : GdtLayout where
  gdt := 0x1000
  gdtTss := 0x1030
  tss := 0x1040
  gdtr := 0x10A8
  gdt_fits := by decide
  tss_fits := by decide
  gdtTss_apart := by decide
  tss_apart := by decide
  gdtr_apart := by decide

example : (ltr (lgdt (gdtInitStores orderedLayout fun _ ↦ 0#8) 0x10A8)
    (gdtInitStores orderedLayout fun _ ↦ 0#8) 0x30#16).map (fun found ↦ found.1.base) =
      some 0x1040#64 := by
  decide +kernel

end Colix.Arch
