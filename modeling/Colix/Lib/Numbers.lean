import Colix.Foundation.ByteString
import Colix.Foundation.Numeral
import Colix.Lib.Serial

/-!
# Numbers are printed exactly

`digitLoop` leaves the digits of its argument in `buf`, the lowest first, and `printLoop` prints
them from the last to the first. What `print_uint` prints is the padding and then the canonical
numeral, and a 64-bit number never has more than 64 digits. `print_int` prints the sign and the
numeral of the absolute value, which for `INT64_MIN` is what its wrapped negation stands for.
-/

set_option autoImplicit false
set_option relaxedAutoImplicit false

namespace Colix.Lib

open Foundation Traced

/-! ### What is printed -/

/-- The characters given to `serial_putc`. -/
def serialText (events : List Event) : List Byte :=
  events.filterMap fun
    | .serialPutc c => some c
    | _ => none

/-- The characters given to `vga_putc`. -/
def vgaText (events : List Event) : List Byte :=
  events.filterMap fun
    | .vgaPutc c => some c
    | _ => none

/-- The event is a use of `buf` inside its 64 bytes, or a character printed. -/
def Event.PrintsNumber : Event → Prop
  | .buffer index => index < 64
  | .serialPutc _ => True
  | .vgaPutc _ => True
  | .format _ => False
  | .text _ => False

/-- The computation returns, has printed the text on both devices, and stays within `buf`. -/
structure Prints (computation : Printing Unit) (text : List Byte) : Prop where
  returns : computation.value = some ()
  serial : serialText computation.accesses = text
  vga : vgaText computation.accesses = text
  within : Within Event.PrintsNumber computation

section Prints

variable {events : List Event} {text rest : List Byte} {next : Unit → Printing Unit}

theorem prints_access (hserial : serialText events = text) (hvga : vgaText events = text)
    (hwithin : ∀ event ∈ events, event.PrintsNumber) : Prints (access events ()) text :=
  ⟨rfl, hserial, hvga, hwithin⟩

theorem prints_kputc (c : Byte) : Prints (kputc c) [c] :=
  prints_access rfl rfl (by simp [Event.PrintsNumber])

/-- What is printed before and what is printed next. -/
theorem Prints.bind {first : Printing Unit} (hfirst : Prints first text)
    (hnext : Prints (next ()) rest) : Prints (first >>= next) (text ++ rest) := by
  obtain ⟨value, events⟩ := first
  obtain ⟨hreturns, hserial, hvga, hwithin⟩ := hfirst
  cases hreturns
  refine ⟨hnext.returns, ?_, ?_, ?_⟩
  · change serialText (events ++ (next ()).accesses) = _
    rw [serialText, List.filterMap_append]
    exact congrArg₂ _ hserial hnext.serial
  · change vgaText (events ++ (next ()).accesses) = _
    rw [vgaText, List.filterMap_append]
    exact congrArg₂ _ hvga hnext.vga
  · exact within_bind.mpr ⟨hwithin, fun _ _ ↦ hnext.within⟩

/-- What is printed after events that print nothing. -/
theorem Prints.after_access {Value : Type} {value : Value} {next : Value → Printing Unit}
    (hnext : Prints (next value) text) (hserial : serialText events = [])
    (hvga : vgaText events = []) (hwithin : ∀ event ∈ events, event.PrintsNumber) :
    Prints (access events value >>= next) text := by
  have hprints : Prints (access events () >>= fun _ ↦ next value) ([] ++ text) :=
    (prints_access hserial hvga hwithin).bind hnext
  exact hprints

end Prints

/-! ### The loops -/

section Loops

variable {base n : Word} {buf : Memory} {width w : ℤ} {pad : Byte} {fuel i : ℕ}

theorem toNat_ne_zero (hnonzero : n ≠ 0#64) : n.toNat ≠ 0 :=
  fun hzero ↦ hnonzero (BitVec.eq_of_toNat_eq hzero)

/-- The loop over the digits writes them behind what `buf` holds. -/
theorem digitLoop_eq (hbase : 1 < base.toNat) (hfuel : n.toNat < fuel) :
    ∃ after, digitLoop base fuel n i buf =
        access ((List.range' i (Nat.digits base.toNat n.toNat).length).map Event.buffer)
          (i + (Nat.digits base.toNat n.toNat).length, after) ∧
      Holds after i ((Nat.digits base.toNat n.toNat).map digitChar) ∧
        ∀ index < i, after index = buf index := by
  induction fuel generalizing n i buf with
  | zero => exact absurd hfuel (Nat.not_lt_zero _)
  | succ fuel ih =>
    by_cases hzero : n = 0#64
    · subst hzero
      rw [BitVec.toNat_zero, Nat.digits_zero]
      exact ⟨buf, if_pos rfl, trivial, fun _ _ ↦ rfl⟩
    · have hpositive : 0 < n.toNat := Nat.pos_of_ne_zero (toNat_ne_zero hzero)
      have hdigits : Nat.digits base.toNat n.toNat =
          n.toNat % base.toNat :: Nat.digits base.toNat (n.toNat / base.toNat) :=
        Nat.digits_def' hbase hpositive
      have hless : n.toNat / base.toNat < n.toNat := Nat.div_lt_self hpositive hbase
      obtain ⟨after, hloop, hholds, hbefore⟩ := @ih (n / base)
        (Function.update buf i (digitChar (n % base).toNat)) (i + 1)
        (by rw [BitVec.toNat_udiv]; omega)
      rw [BitVec.toNat_udiv] at hloop hholds
      refine ⟨after, ?_, ?_, fun index hindex ↦ ?_⟩
      · rw [digitLoop, if_neg hzero, hloop, access_bind_access, hdigits, List.length_cons,
          List.range'_succ, List.map_cons, Nat.add_right_comm, Nat.add_assoc]
        rfl
      · rw [hdigits]
        refine ⟨?_, hholds⟩
        rw [hbefore i (Nat.lt_succ_self i), Function.update_self, BitVec.toNat_umod]
      · rw [hbefore index (by omega), Function.update_of_ne (by omega)]

/-- The padding reaches the width. -/
theorem prints_padLoop (hfuel : (width - w).toNat < fuel) :
    Prints (padLoop width pad fuel w) (List.replicate (width - w).toNat pad) := by
  induction fuel generalizing w with
  | zero => exact absurd hfuel (Nat.not_lt_zero _)
  | succ fuel ih =>
    rw [padLoop]
    by_cases hlt : w < width
    · have hcount : (width - w).toNat = (width - (w + 1)).toNat + 1 := by omega
      rw [if_pos hlt, hcount, List.replicate_succ]
      exact (prints_kputc pad).bind (ih (by omega))
    · rw [if_neg hlt, Int.toNat_of_nonpos (by omega)]
      exact prints_access rfl rfl (by simp)

/-- The characters in `buf` are printed from the last to the first. -/
theorem prints_printLoop {chars : List Byte} (hholds : Holds buf 0 chars)
    (hlength : chars.length ≤ 64) : Prints (printLoop buf chars.length) chars.reverse := by
  induction chars using List.reverseRecOn with
  | nil => exact prints_access rfl rfl (by simp)
  | append_singleton chars c ih =>
    obtain ⟨hchars, hlast⟩ := holds_append.mp hholds
    rw [Nat.zero_add] at hlast
    rw [List.length_append, List.length_singleton] at hlength ⊢
    rw [List.reverse_append, List.reverse_singleton, printLoop, hlast.1]
    refine (prints_access rfl rfl ?_).bind (ih hchars (by omega))
    simp only [List.forall_mem_cons, Event.PrintsNumber]
    exact ⟨by omega, trivial, by omega, trivial, fun _ hmem ↦ absurd hmem List.not_mem_nil⟩

end Loops

/-! ### The numbers -/

section Numbers

variable {base : BitVec 32}

theorem toNat_signExtend_base (hbase : base = 10#32 ∨ base = 16#32) :
    (base.signExtend 64).toNat = base.toNat ∧ 1 < base.toNat := by
  rcases hbase with rfl | rfl <;> decide

theorem length_lowDigits_word_le {base : ℕ} (hbase : 1 < base) (n : Word) :
    (lowDigits base n.toNat).length ≤ 64 :=
  length_lowDigits_le hbase (by decide) (n.isLt.trans_le (Nat.pow_le_pow_left hbase 64))

/-- `buf` holds the digits from its first byte on, whichever branch wrote them. -/
theorem writeDigits_eq (hbase : base = 10#32 ∨ base = 16#32) (buf : Memory) (n : Word) :
    ∃ events after, writeDigits buf n base =
        access events ((lowDigits base.toNat n.toNat).length, after) ∧
      Holds after 0 ((lowDigits base.toNat n.toNat).map digitChar) ∧
        serialText events = [] ∧ vgaText events = [] ∧ ∀ event ∈ events, event.PrintsNumber := by
  obtain ⟨hextend, hone⟩ := toNat_signExtend_base hbase
  by_cases hzero : n = 0#64
  · subst hzero
    exact ⟨_, _, if_pos rfl, ⟨rfl, trivial⟩, rfl, rfl, by simp [Event.PrintsNumber]⟩
  · have hlow : lowDigits base.toNat n.toNat = Nat.digits base.toNat n.toNat :=
      if_neg (toNat_ne_zero hzero)
    have hlength := length_lowDigits_word_le hone n
    obtain ⟨after, hloop, hholds, -⟩ := @digitLoop_eq (base.signExtend 64) n buf (n.toNat + 1) 0
      (by rw [hextend]; exact hone) (Nat.lt_succ_self n.toNat)
    rw [hextend, ← hlow, Nat.zero_add] at hloop
    rw [hextend, ← hlow] at hholds
    refine ⟨_, after, (if_neg hzero).trans hloop, hholds, ?_, ?_, ?_⟩
    · simp [serialText, List.filterMap_map]
    · simp [vgaText, List.filterMap_map]
    · intro event hevent
      obtain ⟨index, hindex, rfl⟩ := List.mem_map.mp hevent
      rw [List.mem_range'_1] at hindex
      change index < 64
      omega

/-- `print_uint` prints the padding and the digits. -/
theorem prints_printUint (hbase : base = 10#32 ∨ base = 16#32) (buf : Memory) (n : Word)
    (width : ℤ) (pad : Byte) :
    Prints (printUint buf n base width pad)
      (List.replicate (width - (lowDigits base.toNat n.toNat).length).toNat pad ++
        (lowDigits base.toNat n.toNat).reverse.map digitChar) := by
  obtain ⟨events, after, hdigits, hholds, hserial, hvga, hwithin⟩ := writeDigits_eq hbase buf n
  have hlength := length_lowDigits_word_le (toNat_signExtend_base hbase).2 n
  have hprint := prints_printLoop hholds (by rwa [List.length_map])
  rw [List.length_map, ← List.map_reverse] at hprint
  rw [printUint, hdigits]
  exact Prints.after_access ((prints_padLoop (by omega)).bind hprint) hserial hvga hwithin

/-- The absolute value that `print_int` prints of a negative number. -/
theorem toInt_of_slt {n : Word} (hnegative : n.slt 0#64) : n.toInt = -((-n).toNat : ℤ) := by
  rw [BitVec.slt_iff_toInt_lt, BitVec.toInt_zero] at hnegative
  have hlt := n.isLt
  rw [BitVec.toInt_eq_toNat_cond] at hnegative ⊢
  rw [BitVec.toNat_neg]
  omega

/-- `print_int` prints the sign and the digits of the absolute value. -/
theorem prints_printInt (buf : Memory) (n : Word) :
    ∃ sign : List Byte, ∃ magnitude : ℕ,
      Prints (printInt buf n) (sign ++ (lowDigits 10 magnitude).reverse.map digitChar) ∧
        (sign = [] ∧ n.toInt = magnitude ∨
          sign = [ascii '-'] ∧ n.toInt < 0 ∧ n.toInt = -(magnitude : ℤ)) := by
  have hprints : ∀ number : Word, Prints (printUint buf number 10#32 0 (ascii ' '))
      ((lowDigits 10 number.toNat).reverse.map digitChar) := fun number ↦ by
    have hprints := prints_printUint (Or.inl rfl) buf number 0 (ascii ' ')
    rwa [Int.toNat_of_nonpos (by omega)] at hprints
  rw [printInt]
  split_ifs with hnegative
  · exact ⟨[ascii '-'], (-n).toNat, (prints_kputc _).bind (hprints _),
      Or.inr ⟨rfl, BitVec.slt_iff_toInt_lt.mp hnegative, toInt_of_slt hnegative⟩⟩
  · refine ⟨[], n.toNat, hprints _, Or.inl ⟨rfl, ?_⟩⟩
    rw [BitVec.slt_iff_toInt_lt, BitVec.toInt_zero] at hnegative
    have hlt := n.isLt
    rw [BitVec.toInt_eq_toNat_cond] at hnegative ⊢
    omega

end Numbers

end Colix.Lib
