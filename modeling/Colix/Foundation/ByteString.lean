import Colix.Foundation.ByteMemory

/-!
# Strings of bytes in memory

`Holds memory address bytes` says that the bytes stand in memory from an address on, and `CString`
that a string without NUL does, ended by one. `IsHexNumeral` relates a string of hexadecimal
digits, in either letter case, to its number.
-/

set_option autoImplicit false
set_option relaxedAutoImplicit false

namespace Colix.Foundation

variable {memory other : Memory} {address : ℕ} {bytes before after : List (BitVec 8)}

/-! ### Bytes in memory -/

/-- The bytes stand in memory from the address on. -/
def Holds (memory : Memory) : ℕ → List (BitVec 8) → Prop
  | _, [] => True
  | address, byte :: rest => memory address = byte ∧ Holds memory (address + 1) rest

/-- Each byte stands at its place. -/
theorem Holds.getElem (hholds : Holds memory address bytes) {index : ℕ}
    (hindex : index < bytes.length) : memory (address + index) = bytes[index] := by
  induction bytes generalizing address index with
  | nil => exact absurd hindex (Nat.not_lt_zero _)
  | cons byte rest ih =>
    cases index with
    | zero => exact hholds.1
    | succ index =>
      rw [List.getElem_cons_succ, ← ih hholds.2 (by simpa using hindex), Nat.add_right_comm,
        Nat.add_assoc]

/-- Bytes that stand each at its place are held. -/
theorem holds_of_getElem (hbytes : ∀ (index : ℕ) (hindex : index < bytes.length),
    memory (address + index) = bytes[index]) : Holds memory address bytes := by
  induction bytes generalizing address with
  | nil => trivial
  | cons byte rest ih =>
    refine ⟨hbytes 0 (Nat.zero_lt_succ _), ih fun index hindex ↦ ?_⟩
    rw [Nat.add_assoc, Nat.add_comm 1]
    exact hbytes (index + 1) (Nat.succ_lt_succ hindex)

/-- Consecutive strings of bytes. -/
theorem holds_append : Holds memory address (before ++ after) ↔
    Holds memory address before ∧ Holds memory (address + before.length) after := by
  induction before generalizing address with
  | nil => simp [Holds]
  | cons byte rest ih =>
    rw [List.cons_append, Holds, Holds, ih, List.length_cons, and_assoc, Nat.add_right_comm,
      Nat.add_assoc]

/-- The bytes held depend on their own places. -/
theorem Holds.congr (hholds : Holds memory address bytes)
    (hagree : ∀ position, address ≤ position → position < address + bytes.length →
      other position = memory position) : Holds other address bytes := by
  induction bytes generalizing address with
  | nil => trivial
  | cons byte rest ih =>
    rw [List.length_cons] at hagree
    refine ⟨(hagree address le_rfl (by omega)).trans hholds.1,
      ih hholds.2 fun position hge hlt ↦ ?_⟩
    exact hagree position (by omega) (by omega)

/-- A string without NUL, ended by one. -/
structure CString (memory : Memory) (address : ℕ) (text : List (BitVec 8)) : Prop where
  nulFree : 0#8 ∉ text
  holds : Holds memory address (text ++ [0#8])

/-- The first byte of a string is its first character, and the string goes on behind it. -/
theorem CString.cons {char : BitVec 8} {text : List (BitVec 8)}
    (hstring : CString memory address (char :: text)) :
    memory address = char ∧ char ≠ 0#8 ∧ CString memory (address + 1) text := by
  obtain ⟨hfree, hholds⟩ := hstring
  rw [List.mem_cons, not_or] at hfree
  exact ⟨hholds.1, Ne.symm hfree.1, hfree.2, hholds.2⟩

/-- The empty string is a NUL. -/
theorem CString.nil (hstring : CString memory address []) : memory address = 0#8 :=
  hstring.holds.1

/-! ### Hexadecimal numerals -/

/-- The character is the digit of the value, in either letter case. -/
def IsHexDigit (char : BitVec 8) (digit : ℕ) : Prop :=
  (digit < 10 ∧ char.toNat = 0x30 + digit) ∨
    (10 ≤ digit ∧ digit < 16 ∧
      (char.toNat = 0x61 + (digit - 10) ∨ char.toNat = 0x41 + (digit - 10)))

theorem IsHexDigit.lt {char : BitVec 8} {digit : ℕ} (hdigit : IsHexDigit char digit) :
    digit < 16 := by
  rw [IsHexDigit] at hdigit
  omega

/-- The characters are digits that continue the digits of `front` to those of the number, most
significant first. -/
def IsHexNumeral : ℕ → List (BitVec 8) → ℕ → Prop
  | front, [], number => number = front
  | front, char :: rest, number =>
    ∃ digit, IsHexDigit char digit ∧ IsHexNumeral (16 * front + digit) rest number

/-- A numeral is below the power of the base that its length gives. -/
theorem IsHexNumeral.lt {numeral : List (BitVec 8)} {front number : ℕ}
    (hnumeral : IsHexNumeral front numeral number) :
    number < 16 ^ numeral.length * (front + 1) := by
  induction numeral generalizing front with
  | nil =>
    rw [show number = front from hnumeral, List.length_nil, pow_zero, Nat.one_mul]
    exact Nat.lt_succ_self front
  | cons char rest ih =>
    obtain ⟨digit, hdigit, hrest⟩ := hnumeral
    have hlt := hdigit.lt
    calc number < 16 ^ rest.length * (16 * front + digit + 1) := ih hrest
      _ ≤ 16 ^ rest.length * (16 * (front + 1)) := Nat.mul_le_mul_left _ (by omega)
      _ = 16 ^ (char :: rest).length * (front + 1) := by
        rw [List.length_cons, pow_succ, Nat.mul_assoc]

/-- The lower-case digit of a value. -/
def hexChar (digit : ℕ) : BitVec 8 :=
  if digit < 10 then BitVec.ofNat 8 (0x30 + digit) else BitVec.ofNat 8 (0x61 + (digit - 10))

theorem isHexDigit_hexChar {digit : ℕ} (hdigit : digit < 16) :
    IsHexDigit (hexChar digit) digit := by
  rw [hexChar]
  by_cases hdecimal : digit < 10
  · rw [if_pos hdecimal]
    exact Or.inl ⟨hdecimal, by simp; omega⟩
  · rw [if_neg hdecimal]
    exact Or.inr ⟨by omega, hdigit, Or.inl (by simp; omega)⟩

/-- The numeral of so many digits. -/
def hexNumeral : ℕ → ℕ → List (BitVec 8)
  | 0, _ => []
  | count + 1, number => hexChar (number / 16 ^ count % 16) :: hexNumeral count number

theorem length_hexNumeral (count number : ℕ) : (hexNumeral count number).length = count := by
  induction count with
  | zero => rfl
  | succ count ih => rw [hexNumeral, List.length_cons, ih]

/-- The numeral of a number continues any front. -/
theorem isHexNumeral_hexNumeral (front count number : ℕ) :
    IsHexNumeral front (hexNumeral count number) (front * 16 ^ count + number % 16 ^ count) := by
  induction count generalizing front with
  | zero =>
    rw [pow_zero, Nat.mul_one, Nat.mod_one]
    rfl
  | succ count ih =>
    refine ⟨_, isHexDigit_hexChar (Nat.mod_lt _ (by decide)), ?_⟩
    have hsplit : front * 16 ^ (count + 1) + number % 16 ^ (count + 1) =
        (16 * front + number / 16 ^ count % 16) * 16 ^ count + number % 16 ^ count := by
      rw [Nat.mod_pow_succ]
      ring
    rw [hsplit]
    exact ih _

end Colix.Foundation
