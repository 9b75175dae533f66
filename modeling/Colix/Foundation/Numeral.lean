import Mathlib.Data.Nat.Digits.Lemmas

/-!
# Numerals

The numeral of a number in a base, as its digits: the only digit of zero is zero, and no other
numeral has a leading zero. `lowDigits` lists the digits as repeated division gives them, the lowest
first, and a numeral is written in the other direction.
-/

set_option autoImplicit false
set_option relaxedAutoImplicit false

namespace Colix.Foundation

variable {base number count : ℕ}

/-- The digits of a number, the lowest first, with one digit for zero. -/
def lowDigits (base number : ℕ) : List ℕ :=
  if number = 0 then [0] else Nat.digits base number

/-- A number below a power of the base has at most so many digits. -/
theorem length_lowDigits_le (hbase : 1 < base) (hcount : 0 < count) (hlt : number < base ^ count) :
    (lowDigits base number).length ≤ count := by
  rw [lowDigits]
  split_ifs with hzero
  · exact hcount
  · exact (Nat.digits_length_le_iff hbase number).mpr hlt

end Colix.Foundation
