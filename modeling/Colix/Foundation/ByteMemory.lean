import Mathlib.Algebra.Order.Group.Nat
import Mathlib.Tactic.Common
import Mathlib.Tactic.Ring

/-!
# Byte-addressed memory

A memory gives every address a byte. `loadNat` and `storeNat` move a little-endian number of any
count of bytes; a load returns what the last store to the same place put there
(`loadNat_storeNat`), and is not affected by a store to a disjoint place
(`loadNat_storeNat_of_disjoint`). `load` and `store` are the same for machine words.
-/

set_option autoImplicit false
set_option relaxedAutoImplicit false

namespace Colix.Foundation

/-- A memory. -/
abbrev Memory := ℕ → BitVec 8

variable {count address other number : ℕ} {memory next : Memory}

/-- The memory with bytes placed at an address. -/
def placeBytes (memory : Memory) (address : ℕ) (bytes : List (BitVec 8)) : Memory := fun position ↦
  if address ≤ position ∧ position < address + bytes.length then
    bytes.getD (position - address) 0#8
  else memory position

/-! ### Little-endian numbers -/

/-- The number in `count` bytes from `address`, least significant byte first. -/
def loadNat : ℕ → Memory → ℕ → ℕ
  | 0, _, _ => 0
  | count + 1, memory, address => (memory address).toNat + 256 * loadNat count memory (address + 1)

/-- The memory with `number` in `count` bytes from `address`. -/
def storeNat (count : ℕ) (memory : Memory) (address number : ℕ) : Memory := fun position ↦
  if address ≤ position ∧ position < address + count then
    BitVec.ofNat 8 (number / 256 ^ (position - address))
  else memory position

/-- A store changes only the bytes it covers. -/
theorem storeNat_apply_of_disjoint {position : ℕ}
    (hdisjoint : position < address ∨ address + count ≤ position) :
    storeNat count memory address number position = memory position :=
  if_neg (by omega)

/-- A load depends only on the bytes it covers. -/
theorem loadNat_congr (hagree : ∀ position, address ≤ position → position < address + count →
    next position = memory position) :
    loadNat count next address = loadNat count memory address := by
  induction count generalizing address with
  | zero => rfl
  | succ count ih =>
    rw [loadNat, loadNat, hagree address (by omega) (by omega),
      ih fun position hge hlt ↦ hagree position (by omega) (by omega)]

/-- Places with the same bytes load the same number. -/
theorem loadNat_eq_of_bytes
    (hbytes : ∀ offset < count, next (other + offset) = memory (address + offset)) :
    loadNat count next other = loadNat count memory address := by
  induction count generalizing other address with
  | zero => rfl
  | succ count ih =>
    have hrest : loadNat count next (other + 1) = loadNat count memory (address + 1) := by
      refine ih fun offset hoffset ↦ ?_
      rw [Nat.add_right_comm, Nat.add_assoc, Nat.add_right_comm, Nat.add_assoc address]
      exact hbytes (offset + 1) (by omega)
    have hfirst : next other = memory address := hbytes 0 (by omega)
    rw [loadNat, loadNat, hfirst, hrest]

/-- A load of the bytes of a number gives the number, modulo the range of the bytes. -/
theorem loadNat_of_bytes
    (hbytes : ∀ offset < count,
      memory (address + offset) = BitVec.ofNat 8 (number / 256 ^ offset)) :
    loadNat count memory address = number % 256 ^ count := by
  induction count generalizing address number with
  | zero => rw [loadNat, pow_zero, Nat.mod_one]
  | succ count ih =>
    have hfirst := hbytes 0 (by omega)
    rw [Nat.add_zero, pow_zero, Nat.div_one] at hfirst
    have hrest : loadNat count memory (address + 1) = number / 256 % 256 ^ count := by
      refine ih fun offset hoffset ↦ ?_
      rw [Nat.div_div_eq_div_mul, ← pow_succ', Nat.add_assoc, Nat.add_comm 1]
      exact hbytes (offset + 1) (by omega)
    rw [loadNat, hfirst, hrest, BitVec.toNat_ofNat, show 2 ^ 8 = 256 from rfl, pow_succ',
      Nat.mod_mul]

/-- A load gives what was stored there. -/
theorem loadNat_storeNat :
    loadNat count (storeNat count memory address number) address = number % 256 ^ count := by
  refine loadNat_of_bytes fun offset hoffset ↦ ?_
  rw [storeNat, if_pos ⟨by omega, by omega⟩, Nat.add_sub_cancel_left]

/-- A load is not affected by a store to a disjoint place. -/
theorem loadNat_storeNat_of_disjoint {stored : ℕ}
    (hdisjoint : address + stored ≤ other ∨ other + count ≤ address) :
    loadNat count (storeNat stored memory address number) other = loadNat count memory other :=
  loadNat_congr fun _ _ _ ↦ storeNat_apply_of_disjoint (by omega)

/-- Zero bytes load as zero. -/
theorem loadNat_zero : loadNat count (fun _ ↦ 0#8) address = 0 := by
  induction count generalizing address with
  | zero => rfl
  | succ count ih => rw [loadNat, ih, Nat.mul_zero, Nat.add_zero, BitVec.toNat_zero]

/-- A load is zero when all its bytes are. -/
theorem loadNat_eq_zero_iff :
    loadNat count memory address = 0 ↔ ∀ offset < count, memory (address + offset) = 0#8 := by
  induction count generalizing address with
  | zero => exact iff_of_true rfl nofun
  | succ count ih =>
    rw [loadNat, Nat.add_eq_zero_iff, Nat.mul_eq_zero, or_iff_right (by decide), ih]
    constructor
    · rintro ⟨hfirst, hrest⟩ (_ | offset) hoffset
      · exact BitVec.eq_of_toNat_eq hfirst
      · rw [← Nat.add_assoc, Nat.add_right_comm]
        exact hrest offset (by omega)
    · refine fun hall ↦ ⟨congrArg BitVec.toNat (hall 0 (by omega)), fun offset hoffset ↦ ?_⟩
      rw [Nat.add_right_comm, Nat.add_assoc]
      exact hall (offset + 1) (by omega)

theorem loadNat_lt : loadNat count memory address < 256 ^ count := by
  induction count generalizing address with
  | zero => exact Nat.one_pos
  | succ count ih =>
    have hbyte := (memory address).isLt
    have hrest : loadNat count memory (address + 1) < 256 ^ count := ih
    rw [loadNat, pow_succ']
    omega

/-! ### Machine words -/

section Words

variable {w : ℕ}

/-- The word of `w` bits at an address. -/
def load (w : ℕ) (memory : Memory) (address : ℕ) : BitVec w :=
  BitVec.ofNat w (loadNat (w / 8) memory address)

/-- The memory with a word stored at an address. -/
def store (memory : Memory) (address : ℕ) (word : BitVec w) : Memory :=
  storeNat (w / 8) memory address word.toNat

/-- A load gives the word stored there. Assumes: the word is a whole number of bytes. -/
theorem load_store (hbytes : w / 8 * 8 = w) (word : BitVec w) :
    load w (store memory address word) address = word := by
  have hrange : 256 ^ (w / 8) = 2 ^ w := by
    rw [show 256 = 2 ^ 8 from rfl, ← pow_mul, Nat.mul_comm, hbytes]
  rw [load, store, loadNat_storeNat, hrange, Nat.mod_eq_of_lt word.isLt, BitVec.ofNat_toNat,
    BitVec.setWidth_eq]

/-- Zero bytes load as zero. -/
theorem load_zero : load w (fun _ ↦ 0#8) address = 0#w := by
  rw [load, loadNat_zero]

/-- A load is zero when all its bytes are. Assumes: the word is a whole number of bytes. -/
theorem load_eq_zero_iff (hbytes : w / 8 * 8 = w) :
    load w memory address = 0#w ↔ ∀ offset < w / 8, memory (address + offset) = 0#8 := by
  have hlt : loadNat (w / 8) memory address < 2 ^ w := by
    have hrange : 256 ^ (w / 8) = 2 ^ w := by
      rw [show 256 = 2 ^ 8 from rfl, ← pow_mul, Nat.mul_comm, hbytes]
    exact loadNat_lt.trans_eq hrange
  rw [← loadNat_eq_zero_iff, load, ← BitVec.toNat_inj, BitVec.toNat_ofNat, BitVec.toNat_zero,
    Nat.mod_eq_of_lt hlt]

/-- A load wider than the word stored extends it by the zeros above it. -/
theorem load_store_extend {stored : ℕ} (hbytes : stored / 8 * 8 = stored) (word : BitVec stored)
    (hzero : ∀ position, address + stored / 8 ≤ position → position < address + w / 8 →
      memory position = 0#8) (hwider : stored ≤ w / 8 * 8) :
    load w (store memory address word) address = word.setWidth w := by
  have hrange : word.toNat < 256 ^ (stored / 8) := by
    rw [show 256 = 2 ^ 8 from rfl, ← pow_mul, Nat.mul_comm, hbytes]
    exact word.isLt
  have hload : loadNat (w / 8) (store memory address word) address =
      word.toNat % 256 ^ (w / 8) := by
    refine loadNat_of_bytes fun offset hoffset ↦ ?_
    rw [store, storeNat]
    split_ifs with hcovered
    · rw [Nat.add_sub_cancel_left]
    · have hlarge : word.toNat / 256 ^ offset = 0 :=
        Nat.div_eq_of_lt (hrange.trans_le (Nat.pow_le_pow_right (by decide) (by omega)))
      rw [hzero (address + offset) (by omega) (by omega), hlarge]
  rw [load, hload, Nat.mod_eq_of_lt, BitVec.ofNat_toNat]
  exact hrange.trans_le (Nat.pow_le_pow_right (by decide) (by omega))

/-- A load is not affected by a store to a disjoint place. -/
theorem load_store_of_disjoint {stored : ℕ} (word : BitVec stored)
    (hdisjoint : address + stored / 8 ≤ other ∨ other + w / 8 ≤ address) :
    load w (store memory address word) other = load w memory other := by
  rw [load, load, store, loadNat_storeNat_of_disjoint hdisjoint]

/-- A store changes only the bytes it covers. -/
theorem store_apply_of_disjoint (word : BitVec w) {position : ℕ}
    (hdisjoint : position < address ∨ address + w / 8 ≤ position) :
    store memory address word position = memory position :=
  storeNat_apply_of_disjoint hdisjoint

/-- A byte that was stored. -/
theorem store_byte (memory : Memory) (address : ℕ) (value : BitVec 8) :
    store memory address value address = value := by
  rw [store, storeNat, if_pos ⟨le_refl _, Nat.lt_succ_self _⟩, Nat.sub_self, pow_zero, Nat.div_one,
    BitVec.ofNat_toNat, BitVec.setWidth_eq]

/-- What a store leaves at a position depends only on what was there. -/
theorem store_apply_congr (word : BitVec w) {position : ℕ}
    (hagree : next position = memory position) :
    store next address word position = store memory address word position := by
  rw [store, store, storeNat, storeNat, hagree]

/-- A load depends only on the bytes it covers. -/
theorem load_congr (hagree : ∀ position, address ≤ position → position < address + w / 8 →
    next position = memory position) : load w next address = load w memory address := by
  rw [load, load, loadNat_congr hagree]

/-- The memory with consecutive 64-bit words stored from an address. -/
def storeWords : Memory → ℕ → List (BitVec 64) → Memory
  | memory, _, [] => memory
  | memory, address, word :: words => storeWords (store memory address word) (address + 8) words

/-- Storing consecutive words changes only the bytes they cover. -/
theorem storeWords_apply_of_disjoint {words : List (BitVec 64)} {position : ℕ}
    (hdisjoint : position < address ∨ address + 8 * words.length ≤ position) :
    storeWords memory address words position = memory position := by
  induction words generalizing memory address with
  | nil => rfl
  | cons word words ih =>
    rw [List.length_cons] at hdisjoint
    rw [storeWords, ih (by omega)]
    exact store_apply_of_disjoint word (by omega)

/-- Storing zero words clears the bytes they cover. -/
theorem storeWords_zero_apply {count position : ℕ} (hge : address ≤ position)
    (hlt : position < address + 8 * count) :
    storeWords memory address (List.replicate count 0#64) position = 0#8 := by
  induction count generalizing memory address with
  | zero => omega
  | succ count ih =>
    rw [List.replicate_succ, storeWords]
    by_cases hfirst : position < address + 8
    · rw [storeWords_apply_of_disjoint (Or.inl hfirst), store, storeNat,
        if_pos ⟨hge, by omega⟩, BitVec.toNat_ofNat, Nat.zero_mod, Nat.zero_div]
    · exact ih (by omega) (by omega)

/-- Each of the words stored is loaded from its place. -/
theorem load_storeWords {words : List (BitVec 64)} {index : ℕ} {word : BitVec 64}
    (hword : words[index]? = some word) :
    load 64 (storeWords memory address words) (address + 8 * index) = word := by
  induction words generalizing memory address index with
  | nil => simp at hword
  | cons first words ih =>
    cases index with
    | zero =>
      rw [List.getElem?_cons_zero, Option.some.injEq] at hword
      have hkept : load 64 (storeWords (store memory address first) (address + 8) words) address =
          load 64 (store memory address first) address :=
        load_congr fun position hge hlt ↦ storeWords_apply_of_disjoint (by omega)
      change load 64 _ address = word
      rw [storeWords, hkept, ← hword]
      exact load_store (by decide) first
    | succ index =>
      rw [List.getElem?_cons_succ] at hword
      rw [storeWords, show address + 8 * (index + 1) = address + 8 + 8 * index by omega]
      exact ih hword

end Words

/-! ### Copies -/

/-- `memset(dest, value, count)`. -/
def fillBytes (memory : Memory) (dest : ℕ) (value : BitVec 8) : ℕ → Memory
  | 0 => memory
  | count + 1 => Function.update (fillBytes memory dest value count) (dest + count) value

/-- `memcpy(dest, source, count)`, byte by byte upwards. -/
def copyBytes (memory : Memory) (dest source : ℕ) : ℕ → Memory
  | 0 => memory
  | count + 1 =>
    let memory := copyBytes memory dest source count
    Function.update memory (dest + count) (memory (source + count))

theorem fillBytes_apply_of_disjoint {dest position : ℕ} {value : BitVec 8}
    (hdisjoint : position < dest ∨ dest + count ≤ position) :
    fillBytes memory dest value count position = memory position := by
  induction count with
  | zero => rfl
  | succ count ih => rw [fillBytes, Function.update_of_ne (by omega), ih (by omega)]

theorem copyBytes_apply_of_disjoint {dest source position : ℕ}
    (hdisjoint : position < dest ∨ dest + count ≤ position) :
    copyBytes memory dest source count position = memory position := by
  induction count with
  | zero => rfl
  | succ count ih => rw [copyBytes, Function.update_of_ne (by omega), ih (by omega)]

/-- A copy between places that do not overlap. -/
theorem copyBytes_apply {dest source offset : ℕ} (hoffset : offset < count)
    (hdisjoint : source + count ≤ dest ∨ dest + count ≤ source) :
    copyBytes memory dest source count (dest + offset) = memory (source + offset) := by
  induction count with
  | zero => omega
  | succ count ih =>
    rw [copyBytes]
    by_cases hlast : offset = count
    · rw [hlast, Function.update_self, copyBytes_apply_of_disjoint (by omega)]
    · rw [Function.update_of_ne (by omega), ih (by omega) (by omega)]

/-- A load from a filled place's surroundings. -/
theorem load_fillBytes_of_disjoint {w dest : ℕ} {value : BitVec 8}
    (hdisjoint : address + w / 8 ≤ dest ∨ dest + count ≤ address) :
    load w (fillBytes memory dest value count) address = load w memory address :=
  load_congr fun _ _ _ ↦ fillBytes_apply_of_disjoint (by omega)

/-- A load from a copy gives what a load from its source gives. -/
theorem load_copyBytes {w dest source offset : ℕ} (hoffset : offset + w / 8 ≤ count)
    (hdisjoint : source + count ≤ dest ∨ dest + count ≤ source) :
    load w (copyBytes memory dest source count) (dest + offset) =
      load w memory (source + offset) := by
  rw [load, load, loadNat_eq_of_bytes fun inner hinner ↦ ?_]
  rw [Nat.add_assoc, Nat.add_assoc]
  exact copyBytes_apply (by omega) hdisjoint

end Colix.Foundation
