import Mathlib.Data.List.Pairwise
import Colix.Foundation.ByteMemory

/-!
# Packed records

A record in memory: fields of whole bytes at offsets from its base, stored one after another. Fields
that are apart keep each other's values, so every field reads as it was stored
(`load_storeFields`), and nothing outside the record changes (`storeFields_apply`). A word whose
pieces are stored in several fields is put together again by `append_pieces`.
-/

set_option autoImplicit false
set_option relaxedAutoImplicit false

namespace Colix.Foundation

/-- A field: its offset, and its value with its width in bits. -/
structure PackedField where
  offset : ℕ
  width : ℕ
  value : BitVec width

/-- The bytes of the field end at this offset. -/
def PackedField.last (field : PackedField) : ℕ :=
  field.offset + field.width / 8

/-- Two fields have no byte in common. -/
def PackedField.Apart (first second : PackedField) : Prop :=
  first.last ≤ second.offset ∨ second.last ≤ first.offset

/-- The stores of the fields, in order. -/
def storeFields (memory : Memory) (base : ℕ) (fields : List PackedField) : Memory :=
  fields.foldl (fun memory field ↦ store memory (base + field.offset) field.value) memory

/-- The fields lie in the first `size` bytes of the record, are whole bytes, and are apart. -/
structure Packed (size : ℕ) (fields : List PackedField) : Prop where
  whole : ∀ field ∈ fields, field.width / 8 * 8 = field.width
  inside : ∀ field ∈ fields, field.last ≤ size
  apart : fields.Pairwise PackedField.Apart

variable {memory : Memory} {base size position : ℕ} {fields : List PackedField}
  {field : PackedField}

/-- Nothing outside the record changes. -/
theorem storeFields_apply (hinside : ∀ field ∈ fields, field.last ≤ size)
    (houtside : position < base ∨ base + size ≤ position) :
    storeFields memory base fields position = memory position := by
  induction fields generalizing memory with
  | nil => rfl
  | cons field fields ih =>
    have hlast := hinside field List.mem_cons_self
    rw [PackedField.last] at hlast
    refine (ih fun other hother ↦ hinside other (List.mem_cons_of_mem _ hother)).trans ?_
    exact store_apply_of_disjoint field.value (by omega)

/-- A field keeps its value when others are stored. -/
theorem load_storeFields_of_apart {w offset : ℕ}
    (hapart : ∀ other ∈ fields, offset + w / 8 ≤ other.offset ∨ other.last ≤ offset) :
    load w (storeFields memory base fields) (base + offset) = load w memory (base + offset) := by
  induction fields generalizing memory with
  | nil => rfl
  | cons other fields ih =>
    have hother := hapart other List.mem_cons_self
    rw [PackedField.last] at hother
    refine (ih fun later hlater ↦ hapart later (List.mem_cons_of_mem _ hlater)).trans ?_
    exact load_store_of_disjoint other.value (by omega)

/-- Every field reads as it was stored. -/
theorem Packed.load_storeFields (hpacked : Packed size fields) (hmem : field ∈ fields) :
    load field.width (storeFields memory base fields) (base + field.offset) = field.value := by
  obtain ⟨hwhole, -, hapart⟩ := hpacked
  induction fields generalizing memory with
  | nil => cases hmem
  | cons other fields ih =>
    obtain ⟨hfirst, hrest⟩ := List.pairwise_cons.mp hapart
    rcases List.mem_cons.mp hmem with rfl | hmem
    · have hlater : ∀ later ∈ fields,
          field.offset + field.width / 8 ≤ later.offset ∨ later.last ≤ field.offset :=
        fun later hlater ↦ hfirst later hlater
      refine (load_storeFields_of_apart hlater).trans ?_
      exact load_store (hwhole field List.mem_cons_self) field.value
    · exact ih hmem (fun later hlater ↦ hwhole later (List.mem_cons_of_mem _ hlater)) hrest

/-- What lies outside the record reads as before. -/
theorem Packed.load_outside (hpacked : Packed size fields) {w address : ℕ}
    (houtside : address + w / 8 ≤ base ∨ base + size ≤ address) :
    load w (storeFields memory base fields) address = load w memory address := by
  refine load_congr fun position hge hlt ↦ storeFields_apply hpacked.inside ?_
  omega

/-! ### Pieces of words -/

/-- A mask does nothing to bits that are cut off anyway. -/
theorem setWidth_and_allOnes {n : ℕ} (word : BitVec n) (w : ℕ) :
    (word &&& (BitVec.allOnes w).setWidth n).setWidth w = word.setWidth w := by
  refine BitVec.eq_of_getLsbD_eq fun i hi ↦ ?_
  simp only [BitVec.getLsbD_setWidth, BitVec.getLsbD_and, BitVec.getLsbD_allOnes, hi, decide_true,
    Bool.true_and, Bool.and_true]
  by_cases hlt : i < n
  · simp [hlt]
  · rw [BitVec.getLsbD_of_ge word i (Nat.le_of_not_lt hlt), Bool.false_and]

/-- Two pieces of a word that follow each other. -/
theorem append_pieces {n : ℕ} (word : BitVec n) (high low : ℕ) :
    (word >>> low).setWidth high ++ word.setWidth low = word.setWidth (high + low) := by
  refine BitVec.eq_of_getLsbD_eq fun i hi ↦ ?_
  simp only [BitVec.getLsbD_append, BitVec.getLsbD_setWidth, BitVec.getLsbD_ushiftRight, hi]
  split_ifs with hlow
  · simp [hlow]
  · rw [decide_eq_true (by omega : i - low < high), Bool.true_and, decide_true, Bool.true_and]
    congr 1
    omega

/-! ### A record copied -/

/-- A copy downwards, which the places may overlap in. -/
theorem copyBytes_apply_of_le {count dest source offset : ℕ} (hoffset : offset < count)
    (hle : dest ≤ source) :
    copyBytes memory dest source count (dest + offset) = memory (source + offset) := by
  induction count with
  | zero => omega
  | succ count ih =>
    rw [copyBytes]
    by_cases hlast : offset = count
    · rw [hlast, Function.update_self, copyBytes_apply_of_disjoint (by omega)]
    · rw [Function.update_of_ne (by omega), ih (by omega)]

/-- A field of a record reads in its copy as in the record. -/
theorem load_copied {w count dest source offset : ℕ} (hoffset : offset + w / 8 ≤ count)
    (hplace : dest ≤ source ∨ source + count ≤ dest) :
    load w (copyBytes memory dest source count) (dest + offset) =
      load w memory (source + offset) := by
  rcases hplace with hle | hbelow
  · rw [load, load, loadNat_eq_of_bytes fun inner hinner ↦ ?_]
    rw [Nat.add_assoc, Nat.add_assoc]
    exact copyBytes_apply_of_le (by omega) hle
  · exact load_copyBytes hoffset (Or.inl hbelow)

end Colix.Foundation
