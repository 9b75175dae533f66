import Mathlib.Data.List.Induction
import Colix.Foundation.ByteMemory

/-!
# Words on a stack

`WordsAt memory address words` says that consecutive 64-bit words stand in memory from an address
on. `pushWords` pushes words on a stack that grows down; they then stand there in the other order
(`wordsAt_pushWords`), and nothing at or above the stack pointer has changed
(`pushWords_apply_of_outside`). Words that stand in memory are replaced one at a time, kept by what
happens elsewhere, and taken from the lowest on.
-/

set_option autoImplicit false
set_option relaxedAutoImplicit false

namespace Colix.Foundation

variable {memory next : Memory} {address top index count position : ℕ} {word : BitVec 64}
  {words rest : List (BitVec 64)}

/-- The words stand in memory from the address on. -/
def WordsAt (memory : Memory) (address : ℕ) (words : List (BitVec 64)) : Prop :=
  ∀ index word, words[index]? = some word → load 64 memory (address + 8 * index) = word

/-- The memory after words are pushed on the stack below `top`, one after the other. -/
def pushWords : Memory → ℕ → List (BitVec 64) → Memory
  | memory, _, [] => memory
  | memory, top, word :: words => pushWords (store memory (top - 8) word) (top - 8) words

/-! ### Words in memory -/

theorem wordsAt_nil : WordsAt memory address [] := by
  intro index word hword
  simp at hword

/-- The lowest word, and those above it. -/
theorem wordsAt_cons : WordsAt memory address (word :: words) ↔
    load 64 memory address = word ∧ WordsAt memory (address + 8) words := by
  constructor
  · refine fun hwords ↦ ⟨hwords 0 word rfl, fun index other hother ↦ ?_⟩
    have hload := hwords (index + 1) other (by rwa [List.getElem?_cons_succ])
    rwa [show address + 8 * (index + 1) = address + 8 + 8 * index by omega] at hload
  · rintro ⟨hfirst, hrest⟩ (_ | index) other hother
    · rw [List.getElem?_cons_zero, Option.some.injEq] at hother
      rw [← hother]
      exact hfirst
    · rw [List.getElem?_cons_succ] at hother
      rw [show address + 8 * (index + 1) = address + 8 + 8 * index by omega]
      exact hrest index other hother

/-- The words that are left when the lowest are taken. -/
theorem WordsAt.drop (hwords : WordsAt memory address words) (count : ℕ) :
    WordsAt memory (address + 8 * count) (words.drop count) := by
  intro index word hword
  rw [List.getElem?_drop] at hword
  rw [Nat.add_assoc, ← Nat.mul_add]
  exact hwords (count + index) word hword

/-- Words depend on their own bytes only. -/
theorem WordsAt.congr (hwords : WordsAt memory address words)
    (hagree : ∀ position, address ≤ position → position < address + 8 * words.length →
      next position = memory position) : WordsAt next address words := by
  intro index word hword
  have hindex : index < words.length := (List.getElem?_eq_some_iff.mp hword).1
  rw [← hwords index word hword]
  refine load_congr fun position hge hlt ↦ hagree position (by omega) ?_
  have hend : position < address + 8 * index + 8 := hlt
  omega

/-- One of the words has changed. -/
theorem WordsAt.set (hwords : WordsAt memory address words) (index : ℕ)
    (hagree : ∀ position, address ≤ position → position < address + 8 * words.length →
      position < address + 8 * index ∨ address + 8 * index + 8 ≤ position →
        next position = memory position) :
    WordsAt next address (words.set index (load 64 next (address + 8 * index))) := by
  intro other value hvalue
  rw [List.getElem?_set] at hvalue
  split_ifs at hvalue with hsame hinside
  · rw [← hsame]
    exact Option.some.inj hvalue
  · have hother : other < words.length := (List.getElem?_eq_some_iff.mp hvalue).1
    rw [← hwords other value hvalue]
    refine load_congr fun position hge hlt ↦ ?_
    have hend : position < address + 8 * other + 8 := hlt
    exact hagree position (by omega) (by omega) (by omega)

/-- One of the words is stored anew. -/
theorem WordsAt.store (hwords : WordsAt memory address words) (index : ℕ) (word : BitVec 64) :
    WordsAt (Foundation.store memory (address + 8 * index) word) address
      (words.set index word) := by
  obtain ⟨stored, hstored⟩ : ∃ stored, stored =
    Foundation.store memory (address + 8 * index) word := ⟨_, rfl⟩
  have hset : WordsAt stored address
      (words.set index (load 64 stored (address + 8 * index))) := by
    refine hwords.set index fun position _ _ houtside ↦ ?_
    rw [hstored]
    exact store_apply_of_disjoint word houtside
  rwa [hstored, load_store (by decide) word] at hset

/-! ### Pushes -/

/-- Pushes change nothing at or above the stack pointer, and nothing below the words pushed. -/
theorem pushWords_apply_of_outside (hroom : 8 * words.length ≤ top)
    (houtside : position < top - 8 * words.length ∨ top ≤ position) :
    pushWords memory top words position = memory position := by
  induction words generalizing memory top with
  | nil => rfl
  | cons word words ih =>
    rw [List.length_cons] at hroom houtside
    rw [pushWords, ih (by omega) (by omega)]
    refine store_apply_of_disjoint word ?_
    change position < top - 8 ∨ top - 8 + 8 ≤ position
    omega

theorem pushWords_append (hroom : 8 * words.length ≤ top) :
    pushWords memory top (words ++ rest) =
      pushWords (pushWords memory top words) (top - 8 * words.length) rest := by
  induction words generalizing memory top with
  | nil => rfl
  | cons word words ih =>
    rw [List.length_cons] at hroom ⊢
    rw [List.cons_append, pushWords, pushWords, ih (by omega),
      show top - 8 - 8 * words.length = top - 8 * (words.length + 1) by omega]

/-- The words pushed stand below the stack pointer, the last one lowest. -/
theorem wordsAt_pushWords (hroom : 8 * words.length ≤ top) :
    WordsAt (pushWords memory top words) (top - 8 * words.length) words.reverse := by
  induction words using List.reverseRecOn with
  | nil => exact wordsAt_nil
  | append_singleton words word ih =>
    rw [List.length_append, List.length_singleton] at hroom ⊢
    rw [List.reverse_append, List.reverse_singleton, List.singleton_append,
      pushWords_append (by omega), pushWords, pushWords, wordsAt_cons,
      show top - 8 * words.length - 8 = top - 8 * (words.length + 1) by omega]
    refine ⟨load_store (by decide) word, ?_⟩
    rw [show top - 8 * (words.length + 1) + 8 = top - 8 * words.length by omega]
    refine (ih (by omega)).congr fun position hge hlt ↦ ?_
    refine store_apply_of_disjoint word ?_
    change position < _ ∨ top - 8 * (words.length + 1) + 8 ≤ position
    omega

end Colix.Foundation
