import Colix.Lib.FormatScan

/-!
# What `kprintf` prints

A format is a sequence of pieces: characters that stand for themselves, and conversions with what
their flags ask for. `Parses` relates a text to its pieces, `render` says what the pieces print of
the arguments, and `kprintf_renders` that `kprintf` prints this, on the serial line as on the
screen, for every format whose conversions all end within it.
-/

set_option autoImplicit false
set_option relaxedAutoImplicit false

namespace Colix.Lib

open Foundation Traced

/-! ### The language of formats -/

/-- A piece of a format. A conversion keeps of its flags what it prints with. -/
inductive Piece
  | plain (c : Byte)
  | signed
  | unsigned (base : ℕ) (width : ℤ) (pad : Byte)
  | pointer
  | string
  | character
  | percent
  | other (c : Byte)
deriving DecidableEq

/-- The number that a string of decimal digits continues. -/
def decimalFrom (front : ℕ) (digits : List Byte) : ℕ :=
  digits.foldl (fun number c ↦ number * 10 + (c.toNat - 0x30)) front

/-- The width that the flags of a conversion ask for, an `int`. -/
def widthOf (flagged : List Byte) : ℤ :=
  (BitVec.ofNat 32 (decimalFrom 0 (flagged.takeWhile fun c ↦ IsDigit c))).toInt

/-- The pad that the flags of a conversion ask for. -/
def padOf (flagged : List Byte) : Byte :=
  if flagged.head? = some (ascii '0') then ascii '0' else ascii ' '

/-- The conversion with a character and these flags. -/
def conversionOf (flagged : List Byte) (c : Byte) : Piece :=
  if c = ascii 'd' then .signed
  else if c = ascii 'u' then .unsigned 10 (widthOf flagged) (padOf flagged)
  else if c = ascii 'x' then .unsigned 16 (widthOf flagged) (padOf flagged)
  else if c = ascii 'p' then .pointer
  else if c = ascii 's' then .string
  else if c = ascii 'c' then .character
  else if c = ascii '%' then .percent
  else .other c

/-- The text consists of the pieces. -/
inductive Parses : List Byte → List Piece → Prop
  | nil : Parses [] []
  | plain {c : Byte} {text : List Byte} {pieces : List Piece} (hplain : c ≠ ascii '%')
      (htext : Parses text pieces) : Parses (c :: text) (.plain c :: pieces)
  | conversion {flagged text : List Byte} {c : Byte} {pieces : List Piece}
      (hflags : afterFlags flagged = c :: text) (htext : Parses text pieces) :
      Parses (ascii '%' :: flagged) (conversionOf flagged c :: pieces)

/-- The texts that consist of pieces are the whole formats. -/
theorem wholeFormat_iff_parses {text : List Byte} :
    WholeFormat text ↔ ∃ pieces, Parses text pieces := by
  constructor
  · intro hwhole
    induction hwhole with
    | nil => exact ⟨_, Parses.nil⟩
    | plain hplain htext ih =>
      obtain ⟨pieces, hpieces⟩ := ih
      exact ⟨_, Parses.plain hplain hpieces⟩
    | conversion hflags htext ih =>
      obtain ⟨pieces, hpieces⟩ := ih
      exact ⟨_, Parses.conversion hflags hpieces⟩
  · rintro ⟨pieces, hpieces⟩
    induction hpieces with
    | nil => exact WholeFormat.nil
    | plain hplain htext ih => exact WholeFormat.plain hplain ih
    | conversion hflags htext ih => exact WholeFormat.conversion hflags ih

/-- A text consists of its pieces in one way. -/
theorem Parses.unique {text : List Byte} {pieces others : List Piece}
    (hpieces : Parses text pieces) (hothers : Parses text others) : pieces = others := by
  induction hpieces generalizing others with
  | nil =>
    cases hothers
    rfl
  | plain hplain htext ih =>
    cases hothers with
    | plain _ hother => rw [ih hother]
    | conversion hflags _ => exact absurd rfl hplain
  | conversion hflags htext ih =>
    cases hothers with
    | plain hplain _ => exact absurd rfl hplain
    | conversion hsame hother =>
      rw [hflags, List.cons.injEq] at hsame
      obtain ⟨rfl, rfl⟩ := hsame
      rw [ih hother]

/-! ### What pieces print -/

/-- The arguments, each as a number and as a string. -/
structure Arguments where
  word : ℕ → Word
  string : ℕ → Option (List Byte)

/-- The slots of a `va_list` hold the arguments. -/
structure Arguments.Held (arguments : Arguments) (args : VaList) : Prop where
  word : ∀ slot, args.word slot = arguments.word slot
  null : ∀ slot, arguments.string slot = none → args.string slot = none
  string : ∀ slot text, arguments.string slot = some text →
    ∃ s, args.string slot = some s ∧ CString s 0 text

/-- The numeral of a number. -/
def numeral (base number : ℕ) : List Byte :=
  (lowDigits base number).reverse.map digitChar

/-- A text padded on the left to a width. -/
def padded (width : ℤ) (pad : Byte) (text : List Byte) : List Byte :=
  List.replicate (width - text.length).toNat pad ++ text

/-- The numeral of an integer. -/
def signedNumeral (n : ℤ) : List Byte :=
  if n < 0 then ascii '-' :: numeral 10 n.natAbs else numeral 10 n.natAbs

/-- The text of a string constant. -/
def constant (text : String) : List Byte :=
  text.toList.map ascii

/-- What a piece prints with the argument in a slot. -/
def Piece.text (arguments : Arguments) (slot : ℕ) : Piece → List Byte
  | .plain c => [c]
  | .signed => signedNumeral (arguments.word slot).toInt
  | .unsigned base width pad => padded width pad (numeral base (arguments.word slot).toNat)
  | .pointer => constant "0x" ++ padded 16 (ascii '0') (numeral 16 (arguments.word slot).toNat)
  | .string => (arguments.string slot).getD (constant "(null)")
  | .character => [(arguments.word slot).setWidth 8]
  | .percent => [ascii '%']
  | .other c => [ascii '%', c]

/-- The slot behind the argument that a piece takes, if it takes one. -/
def Piece.nextSlot (slot : ℕ) : Piece → ℕ
  | .plain _ => slot
  | .percent => slot
  | .other _ => slot
  | _ => slot + 1

/-- What pieces print, from a slot on. -/
def render (arguments : Arguments) : ℕ → List Piece → List Byte
  | _, [] => []
  | slot, piece :: pieces =>
    piece.text arguments slot ++ render arguments (piece.nextSlot slot) pieces

/-! ### Computations that print -/

/-- The event stays within the format and within the 64 bytes of `buf`. -/
def Event.Inside (length : ℕ) : Event → Prop
  | .format place => place ≤ length
  | .buffer index => index < 64
  | _ => True

/-- The computation returns a value that meets the condition, and has printed the text on both
devices. -/
structure Renders {Value : Type} (length : ℕ) (condition : Value → Prop) (text : List Byte)
    (computation : Printing Value) : Prop where
  yields : Yields (Event.Inside length) condition computation
  serial : serialText computation.accesses = text
  vga : vgaText computation.accesses = text

section Renders

variable {Value Result : Type} {length : ℕ} {text rest : List Byte}
  {first : Printing Value} {next : Value → Printing Result}

/-- What is printed first and what is printed next. -/
theorem Renders.bind {middle : Value → Prop} {condition : Result → Prop}
    (hfirst : Renders length middle text first)
    (hnext : ∀ value, middle value → Renders length condition rest (next value)) :
    Renders length condition (text ++ rest) (first >>= next) := by
  obtain ⟨value, hvalue, hmiddle, -⟩ := hfirst.yields
  have hevents : (first >>= next).accesses = first.accesses ++ (next value).accesses := by
    obtain ⟨returned, events⟩ := first
    cases hvalue
    rfl
  refine ⟨hfirst.yields.bind fun value hvalue ↦ (hnext value hvalue).yields, ?_, ?_⟩
  · rw [hevents, serialText, List.filterMap_append]
    exact congrArg₂ _ hfirst.serial (hnext value hmiddle).serial
  · rw [hevents, vgaText, List.filterMap_append]
    exact congrArg₂ _ hfirst.vga (hnext value hmiddle).vga

theorem renders_pure {condition : Value → Prop} {value : Value} (hcondition : condition value) :
    Renders length condition [] (pure value) :=
  ⟨yields_pure hcondition, rfl, rfl⟩

/-- What returns after a text has been printed. -/
theorem Renders.bind_pure {middle : Value → Prop} {condition : Result → Prop} {result : Result}
    (hfirst : Renders length middle text first) (hcondition : condition result) :
    Renders length condition text (first >>= fun _ ↦ pure result) := by
  have hboth : Renders length condition (text ++ []) (first >>= fun _ ↦ pure result) :=
    hfirst.bind fun _ _ ↦ renders_pure hcondition
  rwa [List.append_nil] at hboth

theorem Prints.renders {computation : Printing Unit} (hprints : Prints computation text) :
    Renders length (fun _ ↦ True) text computation := by
  refine ⟨⟨(), hprints.returns, trivial, hprints.within.mono fun event hevent ↦ ?_⟩,
    hprints.serial, hprints.vga⟩
  cases event with
  | format place => exact absurd hevent id
  | buffer index => exact hevent
  | _ => trivial

end Renders

/-! ### The flags -/

section Flags

variable {fmt : Memory} {length place fuel : ℕ} {text : List Byte}

/-- The event reads the format. -/
def Event.ReadsFormat (length : ℕ) : Event → Prop
  | .format place => place ≤ length
  | _ => False

/-- A computation that only reads the format prints nothing. -/
theorem renders_of_reads {Value : Type} {condition : Value → Prop} {computation : Printing Value}
    (hreads : Yields (Event.ReadsFormat length) condition computation) :
    Renders length condition [] computation := by
  obtain ⟨value, hvalue, hcondition, hwithin⟩ := hreads
  refine ⟨⟨value, hvalue, hcondition, hwithin.mono fun event hevent ↦ ?_⟩,
    List.filterMap_eq_nil_iff.mpr fun event hmem ↦ ?_,
    List.filterMap_eq_nil_iff.mpr fun event hmem ↦ ?_⟩
  · cases event with
    | format place => exact hevent
    | _ => exact absurd hevent id
  · cases event with
    | serialPutc c => exact absurd (hwithin _ hmem) id
    | _ => rfl
  · cases event with
    | vgaPutc c => exact absurd (hwithin _ hmem) id
    | _ => rfl

theorem RestAt.reads_readFormat (hrest : RestAt fmt length place text) :
    Yields (Event.ReadsFormat length) (fun c ↦ c = text.headD 0#8) (readFormat fmt place) := by
  obtain ⟨hread, hinside⟩ := hrest.read
  refine yields_access (fun event hevent ↦ ?_) hread
  rw [List.mem_singleton] at hevent
  rw [hevent]
  exact hinside

/-- The pad, and the digits that are left for the width. -/
theorem RestAt.reads_zeroFlag (hrest : RestAt fmt length place text) :
    Yields (Event.ReadsFormat length)
      (fun result ↦ result.2 = padOf text ∧ ∃ after, RestAt fmt length result.1 after ∧
        after.length ≤ text.length ∧
        (after.dropWhile fun c ↦ IsDigit c) = (text.dropWhile fun c ↦ IsDigit c) ∧
        decimalFrom 0 (after.takeWhile fun c ↦ IsDigit c) =
          decimalFrom 0 (text.takeWhile fun c ↦ IsDigit c))
      (zeroFlag fmt place) := by
  refine hrest.reads_readFormat.bind fun c hc ↦ ?_
  cases text with
  | nil =>
    rw [if_neg (by rw [hc]; decide)]
    exact yields_pure ⟨rfl, [], hrest, le_rfl, rfl, rfl⟩
  | cons d text =>
    rw [List.headD_cons] at hc
    subst hc
    by_cases hzero : c = ascii '0'
    · subst hzero
      rw [if_pos rfl]
      refine yields_pure ⟨rfl, text, hrest.tail, Nat.le_succ _, ?_, ?_⟩
      · rw [List.dropWhile_cons_of_pos (by decide)]
      · rw [List.takeWhile_cons_of_pos (by decide)]
        rfl
    · rw [if_neg hzero]
      refine yields_pure ⟨?_, _, hrest, le_rfl, rfl, rfl⟩
      rw [padOf, List.head?_cons, if_neg (by rwa [Option.some.injEq])]

/-- A digit continues the width. -/
theorem width_step {c : Byte} (hdigit : IsDigit c) (front : ℕ) :
    BitVec.ofNat 32 front * 10#32 + (c - ascii '0').setWidth 32 =
      BitVec.ofNat 32 (front * 10 + (c.toNat - 0x30)) := by
  have hlow : 0x30 ≤ c.toNat := BitVec.le_def.mp hdigit.1
  have hlt := c.isLt
  have hzero : (ascii '0').toNat = 0x30 := rfl
  apply BitVec.eq_of_toNat_eq
  simp only [BitVec.toNat_add, BitVec.toNat_mul, BitVec.toNat_ofNat, BitVec.toNat_setWidth,
    BitVec.toNat_sub, hzero]
  omega

/-- The width takes the digits, and is their number. -/
theorem RestAt.reads_widthLoop (hrest : RestAt fmt length place text)
    (hfuel : text.length < fuel) (front : ℕ) :
    Yields (Event.ReadsFormat length)
      (fun result ↦ RestAt fmt length result.1 (text.dropWhile fun c ↦ IsDigit c) ∧
        result.2 = BitVec.ofNat 32 (decimalFrom front (text.takeWhile fun c ↦ IsDigit c)))
      (widthLoop fmt fuel place (BitVec.ofNat 32 front)) := by
  induction fuel generalizing place text front with
  | zero => exact absurd hfuel (Nat.not_lt_zero _)
  | succ fuel ih =>
    refine hrest.reads_readFormat.bind fun c hc ↦ ?_
    cases text with
    | nil =>
      rw [if_neg (by rw [hc]; decide)]
      exact yields_pure ⟨hrest, rfl⟩
    | cons d text =>
      rw [List.headD_cons] at hc
      subst hc
      rw [List.length_cons] at hfuel
      by_cases hdigit : IsDigit c
      · rw [if_pos hdigit, width_step hdigit, List.dropWhile_cons_of_pos (by simpa using hdigit),
          List.takeWhile_cons_of_pos (by simpa using hdigit)]
        exact ih hrest.tail (by omega) _
      · rw [if_neg hdigit, List.dropWhile_cons_of_neg (by simpa using hdigit),
          List.takeWhile_cons_of_neg (by simpa using hdigit)]
        exact yields_pure ⟨hrest, rfl⟩

/-- The flag of a long argument takes at most two `l`. -/
theorem RestAt.reads_longFlag (hrest : RestAt fmt length place text) :
    Yields (Event.ReadsFormat length)
      (fun next ↦ RestAt fmt length next (dropLong (dropLong text))) (longFlag fmt place) := by
  obtain ⟨next, hnext, hafter, hinside⟩ := hrest.yields_longFlag
  have hformat : Within (fun event ↦ ∃ place, event = Event.format place)
      (longFlag fmt place) := by
    refine within_bind.mpr ⟨by simp [readFormat], fun c _ ↦ ?_⟩
    split_ifs
    · refine within_bind.mpr ⟨by simp [readFormat], fun c _ ↦ ?_⟩
      split_ifs
      · exact (within_pure _).mpr trivial
      · exact (within_pure _).mpr trivial
    · exact (within_pure _).mpr trivial
  refine ⟨next, hnext, hafter, fun event hmem ↦ ?_⟩
  obtain ⟨read, rfl⟩ := hformat event hmem
  exact hinside _ hmem

/-- The flags give the width and the pad. -/
theorem RestAt.reads_scanFlags (hrest : RestAt fmt length place text)
    (hfuel : text.length < fuel) :
    Yields (Event.ReadsFormat length)
      (fun result ↦ RestAt fmt length result.1 (afterFlags text) ∧
        result.2.1.toInt = widthOf text ∧ result.2.2 = padOf text)
      (scanFlags fmt fuel place) := by
  refine hrest.reads_zeroFlag.bind ?_
  rintro ⟨next, pad⟩ ⟨hpad, after, hafter, hlength, hdrop, htake⟩
  refine (hafter.reads_widthLoop (hlength.trans_lt hfuel) 0).bind ?_
  rintro ⟨next, width⟩ ⟨hnext, hwidth⟩
  rw [hdrop] at hnext
  rw [htake] at hwidth
  refine hnext.reads_longFlag.bind fun next hnext ↦ yields_pure ⟨hnext, ?_, hpad⟩
  exact congrArg BitVec.toInt hwidth

end Flags

/-! ### The conversions -/

section Conversions

variable {s buf : Memory} {length place fuel slot : ℕ} {text : List Byte} {args : VaList}
  {arguments : Arguments}

theorem renders_kputc (c : Byte) : Renders length (fun _ ↦ True) [c] (kputc c) :=
  (prints_kputc c).renders

/-- The loop of `kputs` prints the string. -/
theorem renders_kputsLoop (hstring : CString s place text) (hfuel : text.length < fuel) :
    Renders length (fun _ ↦ True) text (kputsLoop s fuel place) := by
  induction fuel generalizing place text with
  | zero => exact absurd hfuel (Nat.not_lt_zero _)
  | succ fuel ih =>
    have hread : Renders length (fun c ↦ c = s place) [] (access [.text place] (s place)) :=
      ⟨yields_access (by simp [Event.Inside]) rfl, rfl, rfl⟩
    cases text with
    | nil =>
      refine hread.bind fun c hc ↦ ?_
      rw [if_pos (hc.trans hstring.nil)]
      exact renders_pure trivial
    | cons d text =>
      obtain ⟨hchar, hnonzero, hrest⟩ := hstring.cons
      refine hread.bind fun c hc ↦ ?_
      rw [hchar] at hc
      subst hc
      rw [if_neg hnonzero]
      refine (renders_kputc c).bind fun _ _ ↦ ?_
      exact ih hrest (by rw [List.length_cons] at hfuel; omega)

theorem renders_kputs_constant {chars : String} (hfree : 0#8 ∉ constant chars)
    (hfuel : (constant chars).length < fuel) :
    Renders length (fun _ ↦ True) (constant chars) (kputs fuel (some (literal chars))) :=
  renders_kputsLoop (cString_literal hfree) hfuel

/-- `kputs` prints a string, or that there is none. -/
theorem renders_kputs (hargs : arguments.Held args) (slot : ℕ) :
    ∃ bound, ∀ fuel ≥ bound, Renders length (fun _ ↦ True)
      ((arguments.string slot).getD (constant "(null)")) (kputs fuel (args.string slot)) := by
  cases hstring : arguments.string slot with
  | none =>
    rw [hargs.null slot hstring, Option.getD_none]
    exact ⟨7, fun fuel hfuel ↦ renders_kputsLoop (cString_literal (by decide)) hfuel⟩
  | some text =>
    obtain ⟨s, hs, htext⟩ := hargs.string slot text hstring
    rw [hs, Option.getD_some]
    exact ⟨text.length + 1, fun fuel hfuel ↦ renders_kputsLoop htext hfuel⟩

theorem prints_padded {base : BitVec 32} (hbase : base = 10#32 ∨ base = 16#32) (buf : Memory)
    (n : Word) (width : ℤ) (pad : Byte) :
    Prints (printUint buf n base width pad) (padded width pad (numeral base.toNat n.toNat)) := by
  have hprints := prints_printUint hbase buf n width pad
  rw [padded, numeral, List.length_map, List.length_reverse]
  exact hprints

theorem prints_signedNumeral (buf : Memory) (n : Word) :
    Prints (printInt buf n) (signedNumeral n.toInt) := by
  obtain ⟨sign, magnitude, hprints, hsign⟩ := prints_printInt buf n
  rcases hsign with ⟨rfl, hvalue⟩ | ⟨rfl, hnegative, hvalue⟩
  · rw [signedNumeral, if_neg (by omega), hvalue, Int.natAbs_natCast]
    exact hprints
  · rw [signedNumeral, if_pos hnegative, hvalue, Int.natAbs_neg, Int.natAbs_natCast]
    exact hprints

/-- Each conversion prints its piece and takes its argument. -/
theorem renders_convert (hargs : arguments.Held args) (slot : ℕ) (flagged : List Byte) (c : Byte) :
    ∃ bound, ∀ fuel ≥ bound, Renders length
      (fun next ↦ next = (conversionOf flagged c).nextSlot slot)
      ((conversionOf flagged c).text arguments slot)
      (convert fuel buf args slot (widthOf flagged) (padOf flagged) c) := by
  obtain ⟨bound, hstring⟩ : ∃ bound, ∀ fuel ≥ bound, Renders length (fun _ ↦ True)
      ((arguments.string slot).getD (constant "(null)")) (kputs fuel (args.string slot)) :=
    renders_kputs hargs slot
  have hlength : (constant "0x").length = 2 := rfl
  refine ⟨max bound 3, fun fuel hfuel ↦ ?_⟩
  have hword := hargs.word slot
  rw [convert, conversionOf, hword]
  split_ifs
  · exact (prints_signedNumeral buf _).renders.bind_pure rfl
  · exact (prints_padded (Or.inl rfl) buf _ _ _).renders.bind_pure rfl
  · exact (prints_padded (Or.inr rfl) buf _ _ _).renders.bind_pure rfl
  · refine (renders_kputs_constant (by decide) (by omega)).bind fun _ _ ↦ ?_
    exact (prints_padded (Or.inr rfl) buf _ _ _).renders.bind_pure rfl
  · exact (hstring fuel (by omega)).bind_pure rfl
  · exact (renders_kputc _).bind_pure rfl
  · exact (renders_kputc _).bind_pure rfl
  · refine (renders_kputc _).bind fun _ _ ↦ ?_
    exact (renders_kputc _).bind_pure rfl

end Conversions

/-! ### The scan -/

section Scan

variable {fmt buf : Memory} {length slot : ℕ} {text : List Byte} {pieces : List Piece}
  {args : VaList} {arguments : Arguments}

/-- The scan prints the pieces from a place on. -/
theorem Parses.renders_kprintfScan (hpieces : Parses text pieces) (hargs : arguments.Held args)
    (slot : ℕ) :
    ∃ bound, ∀ fuel ≥ bound, ∀ place, RestAt fmt length place text →
      Renders length (fun _ ↦ True) (render arguments slot pieces)
        (kprintfScan fmt buf args fuel place slot) := by
  induction hpieces generalizing slot with
  | nil =>
    refine ⟨1, fun fuel hfuel place hrest ↦ ?_⟩
    obtain ⟨fuel, rfl⟩ := Nat.exists_eq_add_of_le' hfuel
    refine (renders_of_reads hrest.reads_readFormat).bind fun c hc ↦ ?_
    rw [List.headD_nil] at hc
    rw [if_pos hc]
    exact renders_pure trivial
  | @plain c text pieces hplain htext ih =>
    obtain ⟨bound, hbound⟩ := ih slot
    refine ⟨bound + 1, fun fuel hfuel place hrest ↦ ?_⟩
    obtain ⟨fuel, rfl⟩ := Nat.exists_eq_add_of_le' (Nat.le_of_add_left_le hfuel)
    refine (renders_of_reads hrest.reads_readFormat).bind fun d hd ↦ ?_
    rw [List.headD_cons] at hd
    subst hd
    rw [if_neg hrest.string.cons.2.1, if_pos hplain]
    exact (renders_kputc d).bind fun _ _ ↦ hbound fuel (by omega) _ hrest.tail
  | @conversion flagged text c pieces hflags htext ih =>
    obtain ⟨bound, hbound⟩ := ih ((conversionOf flagged c).nextSlot slot)
    have hconversion : ∃ bound, ∀ fuel ≥ bound, Renders length
        (fun next ↦ next = (conversionOf flagged c).nextSlot slot)
        ((conversionOf flagged c).text arguments slot)
        (convert fuel buf args slot (widthOf flagged) (padOf flagged) c) :=
      renders_convert hargs slot flagged c
    obtain ⟨convertBound, hconvert⟩ := hconversion
    refine ⟨max bound (max convertBound (flagged.length + 1)) + 1, fun fuel hfuel place hrest ↦ ?_⟩
    obtain ⟨fuel, rfl⟩ := Nat.exists_eq_add_of_le' (Nat.le_of_add_left_le hfuel)
    refine (renders_of_reads hrest.reads_readFormat).bind fun d hd ↦ ?_
    rw [List.headD_cons] at hd
    subst hd
    rw [if_neg (by decide), if_neg (by simp)]
    refine (renders_of_reads (hrest.tail.reads_scanFlags (by omega))).bind ?_
    rintro ⟨behind, width, pad⟩ ⟨hbehind, hwidth, hpad⟩
    rw [hflags] at hbehind
    refine (renders_of_reads hbehind.reads_readFormat).bind fun d hd ↦ ?_
    rw [List.headD_cons] at hd
    subst hd
    replace hwidth : width.toInt = widthOf flagged := hwidth
    replace hpad : pad = padOf flagged := hpad
    rw [hwidth, hpad]
    refine (hconvert fuel (by omega)).bind fun after hafter ↦ ?_
    rw [hafter]
    exact hbound fuel (by omega) _ hbehind.tail

/-- What `kprintf` prints is the rendering of its format. -/
theorem Parses.renders_kprintf (hpieces : Parses text pieces) (hfmt : CString fmt 0 text)
    (hargs : arguments.Held args) (buf : Memory) :
    ∃ bound, ∀ fuel ≥ bound,
      Renders text.length (fun _ ↦ True) (render arguments 0 pieces)
        (kprintf fuel buf fmt args) := by
  have hrest : RestAt fmt text.length 0 text := ⟨hfmt, Nat.zero_add _⟩
  obtain ⟨bound, hbound⟩ := hpieces.renders_kprintfScan hargs 0
  exact ⟨bound, fun fuel hfuel ↦ hbound fuel hfuel 0 hrest⟩

/-- `kprintf` returns and prints the pieces of its format, on the serial line and on the screen. -/
theorem kprintf_renders (hfmt : CString fmt 0 text) (hpieces : Parses text pieces)
    (hargs : arguments.Held args) (buf : Memory) :
    ∃ bound, ∀ fuel ≥ bound,
      Completes (Event.Inside text.length) (kprintf fuel buf fmt args) ∧
      serialText (kprintf fuel buf fmt args).accesses = render arguments 0 pieces ∧
      vgaText (kprintf fuel buf fmt args).accesses = render arguments 0 pieces := by
  obtain ⟨bound, hbound⟩ := hpieces.renders_kprintf hfmt hargs buf
  refine ⟨bound, fun fuel hfuel ↦ ?_⟩
  have hrenders := hbound fuel hfuel
  exact ⟨hrenders.yields.completes, hrenders.serial, hrenders.vga⟩

/-- The words 255 and -5, with a string between them. -/
def lineArguments : Arguments :=
  ⟨fun slot ↦ if slot = 0 then 255#64 else -5#64,
    fun slot ↦ if slot = 1 then some (constant "idle") else none⟩

/-- Their slots. -/
def lineSlots : VaList :=
  ⟨lineArguments.word, fun slot ↦ if slot = 1 then some (literal "idle") else none⟩

/-- A padded number, a string, a negative number and a percent sign. -/
theorem kprintf_renders_line :
    ∃ bound, ∀ fuel ≥ bound,
      Completes (Event.Inside 14)
        (kprintf fuel (fun _ ↦ 0#8) (literal "%04x %s=%ld%%\n") lineSlots) ∧
      serialText (kprintf fuel (fun _ ↦ 0#8) (literal "%04x %s=%ld%%\n") lineSlots).accesses =
          constant "00ff idle=-5%\n" ∧
      vgaText (kprintf fuel (fun _ ↦ 0#8) (literal "%04x %s=%ld%%\n") lineSlots).accesses =
          constant "00ff idle=-5%\n" := by
  have hargs : lineArguments.Held lineSlots := by
    refine ⟨fun _ ↦ rfl, fun slot hnone ↦ ?_, fun slot text hsome ↦ ?_⟩
    · by_cases hslot : slot = 1
      · simp [lineArguments, hslot] at hnone
      · simp [lineSlots, hslot]
    · by_cases hslot : slot = 1
      · simp only [lineArguments, lineSlots, hslot, if_true, Option.some.injEq] at hsome ⊢
        exact ⟨_, rfl, hsome ▸ cString_literal (by decide)⟩
      · simp [lineArguments, hslot] at hsome
  have hpieces : Parses (constant "%04x %s=%ld%%\n")
      [.unsigned 16 4 (ascii '0'), .plain (ascii ' '), .string, .plain (ascii '='), .signed,
        .percent, .plain (ascii '\n')] :=
    Parses.conversion (c := ascii 'x') rfl (.plain (by decide) (.conversion (c := ascii 's') rfl
      (.plain (by decide) (.conversion (c := ascii 'd') rfl (.conversion (c := ascii '%') rfl
        (.plain (by decide) .nil))))))
  have hrender : render lineArguments 0 [.unsigned 16 4 (ascii '0'), .plain (ascii ' '), .string,
      .plain (ascii '='), .signed, .percent, .plain (ascii '\n')] =
        constant "00ff idle=-5%\n" := by
    decide
  have hprints := kprintf_renders (cString_literal (by decide)) hpieces hargs (fun _ ↦ 0#8)
  rwa [hrender] at hprints

end Scan

end Colix.Lib
