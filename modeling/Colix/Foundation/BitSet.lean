import Mathlib.Logic.Function.Basic
import Mathlib.Tactic.Common

/-!
# Bit-packed sets

A set of natural numbers packed into an array of machine words: the bit of `index` is bit
`index % w` of word `index / w`. Setting and clearing one bit are exact and leave every
other bit alone (`bitTest_bitSet`, `bitTest_bitClear`), in the same word and in every other.
-/

set_option autoImplicit false
set_option relaxedAutoImplicit false

namespace Colix.Foundation

variable {w : ℕ}

/-- The word with the single bit of `index` set. -/
def bitMask (w index : ℕ) : BitVec w :=
  1#w <<< (index % w)

/-- The packed set with the bit of `index` set. -/
def bitSet (words : ℕ → BitVec w) (index : ℕ) : ℕ → BitVec w :=
  Function.update words (index / w) (words (index / w) ||| bitMask w index)

/-- The packed set with the bit of `index` cleared. -/
def bitClear (words : ℕ → BitVec w) (index : ℕ) : ℕ → BitVec w :=
  Function.update words (index / w) (words (index / w) &&& ~~~bitMask w index)

/-- Whether the bit of `index` is set. -/
def bitTest (words : ℕ → BitVec w) (index : ℕ) : Bool :=
  words (index / w) &&& bitMask w index != 0#w

/-- The mask of an index has exactly the bit at the index's position. -/
theorem getLsbD_bitMask (index position : ℕ) (hposition : position < w) :
    (bitMask w index).getLsbD position = decide (position = index % w) := by
  have hw : index % w < w := Nat.mod_lt _ (by omega)
  simp only [bitMask, BitVec.getLsbD_shiftLeft, BitVec.getLsbD_one]
  by_cases heq : position = index % w
  · subst heq
    simp [hposition]
    omega
  · by_cases hlt : position < index % w
    · simp [hlt, heq]
    · have hne : position - index % w ≠ 0 := by omega
      simp [hne, heq]

/-- Masking a word with the mask of an index is zero exactly when the word's bit is clear. -/
theorem and_bitMask_ne_zero (hw : 0 < w) (word : BitVec w) (index : ℕ) :
    (word &&& bitMask w index != 0#w) = word.getLsbD (index % w) := by
  have hposition : index % w < w := Nat.mod_lt _ hw
  by_cases hbit : word.getLsbD (index % w) = true
  · rw [hbit, bne_iff_ne]
    intro hzero
    have hget := congrArg (BitVec.getLsbD · (index % w)) hzero
    simp [BitVec.getLsbD_and, getLsbD_bitMask _ _ hposition, hbit] at hget
  · rw [Bool.not_eq_true] at hbit
    rw [hbit, bne_eq_false_iff_eq]
    refine BitVec.eq_of_getLsbD_eq fun position hlt ↦ ?_
    rw [BitVec.getLsbD_and, getLsbD_bitMask _ _ hlt, BitVec.getLsbD_zero]
    by_cases heq : position = index % w
    · simp [heq, hbit]
    · simp [heq]

/-- The bit of an index is the bit of its word at its position. -/
theorem bitTest_eq_getLsbD (hw : 0 < w) (words : ℕ → BitVec w) (index : ℕ) :
    bitTest words index = (words (index / w)).getLsbD (index % w) :=
  and_bitMask_ne_zero hw _ _

/-- Two indices share word and position only when they are equal. -/
theorem eq_of_div_eq_of_mod_eq {first second : ℕ} (hdiv : first / w = second / w)
    (hmod : first % w = second % w) : first = second := by
  rw [← Nat.div_add_mod first w, ← Nat.div_add_mod second w, hdiv, hmod]

/-- Setting a bit sets that bit and no other. -/
theorem bitTest_bitSet (hw : 0 < w) (words : ℕ → BitVec w) (index other : ℕ) :
    bitTest (bitSet words index) other = (decide (other = index) || bitTest words other) := by
  have hposition : other % w < w := Nat.mod_lt _ hw
  rw [bitTest_eq_getLsbD hw, bitTest_eq_getLsbD hw, bitSet]
  by_cases hword : other / w = index / w
  · rw [hword, Function.update_self, BitVec.getLsbD_or, getLsbD_bitMask _ _ hposition,
      Bool.or_comm]
    congr 1
    rw [decide_eq_decide]
    exact ⟨eq_of_div_eq_of_mod_eq hword, fun heq ↦ by rw [heq]⟩
  · have hne : other ≠ index := fun heq ↦ hword (by rw [heq])
    rw [Function.update_of_ne hword]
    simp [hne]

/-- Clearing a bit clears that bit and no other. -/
theorem bitTest_bitClear (hw : 0 < w) (words : ℕ → BitVec w) (index other : ℕ) :
    bitTest (bitClear words index) other = (!decide (other = index) && bitTest words other) := by
  have hposition : other % w < w := Nat.mod_lt _ hw
  rw [bitTest_eq_getLsbD hw, bitTest_eq_getLsbD hw, bitClear]
  by_cases hword : other / w = index / w
  · rw [hword, Function.update_self, BitVec.getLsbD_and, BitVec.getLsbD_not,
      getLsbD_bitMask _ _ hposition, Bool.and_comm]
    congr 1
    rw [decide_eq_true hposition, Bool.true_and]
    congr 1
    rw [decide_eq_decide]
    exact ⟨eq_of_div_eq_of_mod_eq hword, fun heq ↦ by rw [heq]⟩
  · have hne : other ≠ index := fun heq ↦ hword (by rw [heq])
    rw [Function.update_of_ne hword]
    simp [hne]

/-- Clearing the first `count` bits one after another leaves exactly the bits from `count` on. -/
theorem bitTest_foldl_bitClear (hw : 0 < w) (words : ℕ → BitVec w)
    (count other : ℕ) :
    bitTest ((List.range count).foldl bitClear words) other =
      (decide (count ≤ other) && bitTest words other) := by
  induction count with
  | zero => simp
  | succ count ih =>
    rw [List.range_succ, List.foldl_append, List.foldl_cons, List.foldl_nil,
      bitTest_bitClear hw, ih]
    by_cases heq : other = count
    · have hnot : ¬ count + 1 ≤ count := by omega
      simp [heq, hnot]
    · have hiff : count + 1 ≤ other ↔ count ≤ other := by omega
      simp [heq, hiff]

end Colix.Foundation
