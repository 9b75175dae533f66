import Mathlib.Data.Nat.Bitwise
import Mathlib.Tactic.Common
import Mathlib.Tactic.Ring

/-!
# Rounding to powers of two

Masking off the low bits of a machine word rounds it down to a multiple of a power of two
(`toNat_and_not_lowMask`), and masking with the low bits is the remainder (`toNat_and_lowMask`).
-/

set_option autoImplicit false
set_option relaxedAutoImplicit false

namespace Colix.Foundation

variable {w shift : ℕ}

/-- A power of two below the word w is represented exactly, and so is its mask. -/
theorem toNat_lowMask (hshift : shift ≤ w) :
    (BitVec.ofNat w (2 ^ shift - 1)).toNat = 2 ^ shift - 1 := by
  rw [BitVec.toNat_ofNat, Nat.mod_eq_of_lt]
  have hpositive : 0 < 2 ^ shift := Nat.two_pow_pos shift
  have hle : 2 ^ shift ≤ 2 ^ w := Nat.pow_le_pow_right (by decide) hshift
  omega

/-- The bits of a low mask are those below the shift. -/
theorem getLsbD_lowMask (hshift : shift ≤ w) (position : ℕ) :
    (BitVec.ofNat w (2 ^ shift - 1)).getLsbD position = decide (position < shift) := by
  rw [← BitVec.testBit_toNat, toNat_lowMask hshift, Nat.testBit_two_pow_sub_one]

/-- Masking with the low bits is the remainder by the power of two. -/
theorem toNat_and_lowMask (hshift : shift ≤ w) (word : BitVec w) :
    (word &&& BitVec.ofNat w (2 ^ shift - 1)).toNat = word.toNat % 2 ^ shift := by
  rw [BitVec.toNat_and, toNat_lowMask hshift, Nat.and_two_pow_sub_one_eq_mod]

/-- Masking off the low bits rounds down to a multiple of the power of two. -/
theorem toNat_and_not_lowMask (hshift : shift ≤ w) (word : BitVec w) :
    (word &&& ~~~BitVec.ofNat w (2 ^ shift - 1)).toNat = word.toNat / 2 ^ shift * 2 ^ shift := by
  refine Nat.eq_of_testBit_eq fun position ↦ ?_
  rw [BitVec.testBit_toNat, BitVec.getLsbD_and, BitVec.getLsbD_not, getLsbD_lowMask hshift,
    Nat.testBit_mul_two_pow, Nat.testBit_div_two_pow]
  by_cases hle : shift ≤ position
  · rw [Nat.sub_add_cancel hle, BitVec.testBit_toNat]
    by_cases hlt : position < w
    · simp [hle, hlt]
    · simp [hle, BitVec.getLsbD_of_ge word position (by omega)]
  · have hlow : position < shift := by omega
    simp [hle, hlow]

/-- Subtracting one from a power of two below the word w gives its low mask. -/
theorem twoPow_sub_one (hshift : shift < w) :
    BitVec.ofNat w (2 ^ shift) - 1#w = BitVec.ofNat w (2 ^ shift - 1) := by
  have hpositive : 0 < 2 ^ shift := Nat.two_pow_pos shift
  have hlt : 2 ^ shift < 2 ^ w := Nat.pow_lt_pow_right (by decide) hshift
  apply BitVec.eq_of_toNat_eq
  rw [BitVec.toNat_sub_of_le, BitVec.toNat_ofNat, BitVec.toNat_ofNat, BitVec.toNat_ofNat,
    Nat.mod_eq_of_lt hlt, Nat.mod_eq_of_lt (by omega : 1 < 2 ^ w),
    Nat.mod_eq_of_lt (by omega : 2 ^ shift - 1 < 2 ^ w)]
  rw [BitVec.le_def, BitVec.toNat_ofNat, BitVec.toNat_ofNat, Nat.mod_eq_of_lt hlt,
    Nat.mod_eq_of_lt (by omega : 1 < 2 ^ w)]
  omega

/-- Rounding up by adding the power of two less one and masking: the sum wraps at the word
w before it is rounded down. -/
theorem toNat_roundUp (hshift : shift < w) (word : BitVec w) :
    ((word + BitVec.ofNat w (2 ^ shift) - 1#w) &&&
        ~~~(BitVec.ofNat w (2 ^ shift) - 1#w)).toNat =
      (word.toNat + (2 ^ shift - 1)) % 2 ^ w / 2 ^ shift * 2 ^ shift := by
  have hassoc : word + BitVec.ofNat w (2 ^ shift) - 1#w =
      word + (BitVec.ofNat w (2 ^ shift) - 1#w) := by grind
  rw [hassoc, twoPow_sub_one hshift, toNat_and_not_lowMask hshift.le, BitVec.toNat_add,
    toNat_lowMask hshift.le]

end Colix.Foundation
