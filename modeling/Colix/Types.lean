import Colix.Foundation.Alignment

/-!
# Machine types and constants

The integer types of `include/types.h`, the alignment macros, and the error codes. Unsigned C
integers are bit vectors of their width, so arithmetic on them wraps as the code's does.
-/

set_option autoImplicit false
set_option relaxedAutoImplicit false

namespace Colix

/-- `uint64_t`, `size_t`, `uintptr_t` and every pointer. -/
abbrev Word := BitVec 64

/-- `uint32_t`. -/
abbrev Word32 := BitVec 32

/-- `uint8_t`. -/
abbrev Byte := BitVec 8

/-- `pid_t`. -/
abbrev Pid := Int32

/-- `PAGE_SIZE`. -/
abbrev pageSize : Word := 4096#64

/-- `ALIGN_UP(x, a)`. -/
def alignUp (x a : Word) : Word :=
  (x + a - 1#64) &&& ~~~(a - 1#64)

/-- `E_OK` and the error codes a system call returns negated. -/
abbrev eOk : ℤ := 0
abbrev esrch : ℤ := 3
abbrev enomem : ℤ := 12
abbrev einval : ℤ := 22

open Foundation in
/-- `ALIGN_UP` to a power of two rounds up in the integers, after the sum has wrapped. -/
theorem toNat_alignUp {shift : ℕ} (hshift : shift < 64) (x : Word) :
    (alignUp x (BitVec.ofNat 64 (2 ^ shift))).toNat =
      (x.toNat + (2 ^ shift - 1)) % 2 ^ 64 / 2 ^ shift * 2 ^ shift :=
  toNat_roundUp hshift x

/-- A `uint32_t` as a 64-bit number. -/
theorem toNat_setWidth_64 (number : Word32) : (number.setWidth 64 : Word).toNat = number.toNat :=
  BitVec.toNat_setWidth_of_le (by decide)

end Colix
