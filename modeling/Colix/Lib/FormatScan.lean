import Colix.Lib.Numbers

/-!
# The scan of a format string

A conversion is a `%`, digits, at most two `l`, and one more character, which the `switch` does not
check for the end of the string: on a format that ends inside a conversion the NUL is taken as the
conversion, and the scan goes on behind it. `WholeFormat` says that every conversion has its
character, and `kprintf_stays_iff` that these are the formats on which the scan stays inside the
string.
-/

set_option autoImplicit false
set_option relaxedAutoImplicit false

namespace Colix.Lib

open Foundation Traced

/-! ### Whole formats -/

/-- A text without the `l` that it may start with. -/
def dropLong : List Byte → List Byte
  | [] => []
  | c :: text => if c = ascii 'l' then text else c :: text

/-- A text behind the digits and the at most two `l` that it may start with. -/
def afterFlags (text : List Byte) : List Byte :=
  dropLong (dropLong (text.dropWhile fun c ↦ IsDigit c))

/-- Every `%` starts a conversion that ends within the text. -/
inductive WholeFormat : List Byte → Prop
  | nil : WholeFormat []
  | plain {c : Byte} {text : List Byte} (hplain : c ≠ ascii '%') (htext : WholeFormat text) :
      WholeFormat (c :: text)
  | conversion {flagged text : List Byte} {c : Byte} (hflags : afterFlags flagged = c :: text)
      (htext : WholeFormat text) : WholeFormat (ascii '%' :: flagged)

/-- The event reads no byte of the format behind its NUL. -/
def Event.InFormat (length : ℕ) : Event → Prop
  | .format place => place ≤ length
  | _ => True

/-! ### The parts of the scan -/

/-- The rest of a format stands from a place on, up to the NUL. -/
structure RestAt (fmt : Memory) (length place : ℕ) (text : List Byte) : Prop where
  string : CString fmt place text
  ends : place + text.length = length

section Scan

variable {fmt buf s : Memory} {length place fuel : ℕ} {text : List Byte} {c : Byte}

theorem RestAt.read (hrest : RestAt fmt length place text) :
    fmt place = text.headD 0#8 ∧ (Event.format place).InFormat length := by
  have hends := hrest.ends
  refine ⟨?_, (by omega : place ≤ length)⟩
  cases text with
  | nil => exact hrest.string.nil
  | cons c text => exact hrest.string.cons.1

theorem RestAt.tail (hrest : RestAt fmt length place (c :: text)) :
    RestAt fmt length (place + 1) text := by
  have hends := hrest.ends
  rw [List.length_cons] at hends
  exact ⟨hrest.string.cons.2.2, by omega⟩

/-- What is read at the start of the rest. -/
theorem RestAt.yields_readFormat (hrest : RestAt fmt length place text) :
    Yields (Event.InFormat length) (fun c ↦ c = text.headD 0#8) (readFormat fmt place) := by
  refine yields_access ?_ hrest.read.1
  rw [List.forall_mem_singleton]
  exact hrest.read.2

/-- The flag of a zero pad is one of the digits. -/
theorem RestAt.yields_zeroFlag (hrest : RestAt fmt length place text) :
    Yields (Event.InFormat length)
      (fun result ↦ ∃ after, RestAt fmt length result.1 after ∧ after.length ≤ text.length ∧
        (after.dropWhile fun c ↦ IsDigit c) = text.dropWhile fun c ↦ IsDigit c)
      (zeroFlag fmt place) := by
  refine hrest.yields_readFormat.bind fun c hc ↦ ?_
  split_ifs with hzero
  · obtain ⟨after, rfl⟩ : ∃ after, text = ascii '0' :: after := by
      cases text with
      | nil => exact absurd (hc.symm.trans hzero) (by decide)
      | cons d text => exact ⟨text, by rw [← hzero, hc]; rfl⟩
    refine yields_pure ⟨after, hrest.tail, Nat.le_succ _, ?_⟩
    rw [List.dropWhile_cons_of_pos (by decide)]
  · exact yields_pure ⟨text, hrest, le_rfl, rfl⟩

/-- The width takes the digits. -/
theorem RestAt.yields_widthLoop (hrest : RestAt fmt length place text)
    (hfuel : text.length < fuel) (width : BitVec 32) :
    Yields (Event.InFormat length)
      (fun result ↦ RestAt fmt length result.1 (text.dropWhile fun c ↦ IsDigit c))
      (widthLoop fmt fuel place width) := by
  induction fuel generalizing place text width with
  | zero => exact absurd hfuel (Nat.not_lt_zero _)
  | succ fuel ih =>
    refine hrest.yields_readFormat.bind fun c hc ↦ ?_
    cases text with
    | nil =>
      rw [if_neg (by rw [hc]; decide)]
      exact yields_pure hrest
    | cons d text =>
      replace hc : c = d := hc
      subst hc
      rw [List.length_cons] at hfuel
      split_ifs with hdigit
      · rw [List.dropWhile_cons, if_pos (decide_eq_true hdigit)]
        exact ih hrest.tail (by omega) _
      · rw [List.dropWhile_cons, if_neg (by simpa using hdigit)]
        exact yields_pure hrest

/-- The flag of a long argument takes at most two `l`. -/
theorem RestAt.yields_longFlag (hrest : RestAt fmt length place text) :
    Yields (Event.InFormat length)
      (fun next ↦ RestAt fmt length next (dropLong (dropLong text))) (longFlag fmt place) := by
  refine hrest.yields_readFormat.bind fun c hc ↦ ?_
  cases text with
  | nil =>
    rw [if_neg (by rw [hc]; decide)]
    exact yields_pure hrest
  | cons d text =>
    replace hc : c = d := hc
    subst hc
    split_ifs with hlong
    · rw [dropLong, if_pos hlong]
      refine hrest.tail.yields_readFormat.bind fun c hc ↦ ?_
      cases text with
      | nil =>
        rw [if_neg (by rw [hc]; decide)]
        exact yields_pure hrest.tail
      | cons d text =>
        replace hc : c = d := hc
        subst hc
        rw [dropLong]
        split_ifs with hsecond
        · exact yields_pure hrest.tail.tail
        · exact yields_pure hrest.tail
    · rw [dropLong, if_neg hlong, dropLong, if_neg hlong]
      exact yields_pure hrest

/-- The flags are those that `afterFlags` leaves out. -/
theorem RestAt.yields_scanFlags (hrest : RestAt fmt length place text)
    (hfuel : text.length < fuel) :
    Yields (Event.InFormat length)
      (fun result ↦ RestAt fmt length result.1 (afterFlags text)) (scanFlags fmt fuel place) := by
  refine hrest.yields_zeroFlag.bind ?_
  rintro ⟨next, pad⟩ ⟨after, hafter, hlength, hdrop⟩
  refine (hafter.yields_widthLoop (hlength.trans_lt hfuel) 0#32).bind ?_
  rintro ⟨next, width⟩ hwidth
  rw [hdrop] at hwidth
  exact hwidth.yields_longFlag.bind fun next hnext ↦ yields_pure hnext

theorem length_dropLong_le (text : List Byte) : (dropLong text).length ≤ text.length := by
  cases text with
  | nil => exact le_rfl
  | cons c text =>
    rw [dropLong]
    split_ifs
    · exact Nat.le_succ _
    · exact le_rfl

theorem length_afterFlags_le (text : List Byte) : (afterFlags text).length ≤ text.length :=
  (length_dropLong_le _).trans ((length_dropLong_le _).trans (List.dropWhile_sublist _).length_le)

end Scan

/-! ### The arguments -/

section Arguments

variable {s buf : Memory} {length place fuel slot : ℕ} {text : List Byte} {args : VaList}

/-- Every string among the arguments is ended by a NUL. -/
def VaList.Terminated (args : VaList) : Prop :=
  ∀ slot s, args.string slot = some s → ∃ text, CString s 0 text

theorem cString_literal {text : String} (hfree : 0#8 ∉ text.toList.map ascii) :
    CString (literal text) 0 (text.toList.map ascii) := by
  refine ⟨hfree, holds_of_getElem fun index hindex ↦ ?_⟩
  rw [Nat.zero_add, literal]
  rw [List.length_append, List.length_singleton] at hindex
  by_cases hinside : index < (text.toList.map ascii).length
  · rw [List.getElem_append_left hinside, List.getD_eq_getElem _ _ hinside]
  · rw [List.getElem_append_right (by omega), List.getD_eq_default _ _ (by omega),
      List.getElem_singleton]

/-- What is printed reads nothing of the format. -/
theorem Prints.yields {computation : Printing Unit} (hprints : Prints computation text) :
    Yields (Event.InFormat length) (fun _ ↦ True) computation := by
  refine ⟨(), hprints.returns, trivial, hprints.within.mono fun event hevent ↦ ?_⟩
  cases event with
  | format place => exact absurd hevent id
  | _ => trivial

theorem yields_kputsLoop (hstring : CString s place text) (hfuel : text.length < fuel) :
    Yields (Event.InFormat length) (fun _ ↦ True) (kputsLoop s fuel place) := by
  induction fuel generalizing place text with
  | zero => exact absurd hfuel (Nat.not_lt_zero _)
  | succ fuel ih =>
    have hread : Yields (Event.InFormat length) (fun c ↦ c = s place)
        (access [.text place] (s place)) := yields_access (by simp [Event.InFormat]) rfl
    refine hread.bind fun c hc ↦ ?_
    cases text with
    | nil =>
      rw [if_pos (hc.trans hstring.nil)]
      exact yields_pure trivial
    | cons d text =>
      obtain ⟨hread, hnonzero, hrest⟩ := hstring.cons
      rw [if_neg (by rw [hc, hread]; exact hnonzero)]
      refine (prints_kputc c).yields.bind fun _ _ ↦ ?_
      exact ih hrest (by rw [List.length_cons] at hfuel; omega)

/-- `kputs` prints a string, or that there is none. -/
theorem yields_kputs {string : Option Memory}
    (hstring : ∀ s, string = some s → ∃ text, CString s 0 text) :
    ∃ bound, ∀ fuel ≥ bound,
      Yields (Event.InFormat length) (fun _ ↦ True) (kputs fuel string) := by
  obtain ⟨text, htext⟩ : ∃ text, CString (string.getD (literal "(null)")) 0 text := by
    cases string with
    | none => exact ⟨_, cString_literal (by decide)⟩
    | some s => exact hstring s rfl
  exact ⟨text.length + 1, fun fuel hfuel ↦ yields_kputsLoop htext hfuel⟩

/-- A conversion takes one argument or none. -/
theorem yields_convert (hargs : args.Terminated) (slot : ℕ) :
    ∃ bound, ∀ fuel ≥ bound, ∀ width pad c,
      Yields (Event.InFormat length) (fun next ↦ next = slot ∨ next = slot + 1)
        (convert fuel buf args slot width pad c) := by
  have hliteral : ∃ bound, ∀ fuel ≥ bound,
      Yields (Event.InFormat length) (fun _ ↦ True) (kputs fuel (some (literal "0x"))) :=
    yields_kputs fun s hs ↦ ⟨_, Option.some.inj hs ▸ cString_literal (by decide)⟩
  have hargument : ∃ bound, ∀ fuel ≥ bound,
      Yields (Event.InFormat length) (fun _ ↦ True) (kputs fuel (args.string slot)) :=
    yields_kputs (hargs slot)
  obtain ⟨literalBound, hpointer⟩ := hliteral
  obtain ⟨stringBound, hstring⟩ := hargument
  refine ⟨max literalBound stringBound, fun fuel hfuel width pad c ↦ ?_⟩
  have hnumber : ∀ base, base = 10#32 ∨ base = 16#32 → ∀ width pad,
      Yields (Event.InFormat length) (fun _ ↦ True)
        (printUint buf (args.word slot) base width pad) := fun base hbase width pad ↦
    (prints_printUint hbase buf (args.word slot) width pad).yields
  obtain ⟨sign, magnitude, hsigned, -⟩ := prints_printInt buf (args.word slot)
  rw [convert]
  split_ifs
  · exact hsigned.yields.bind fun _ _ ↦ yields_pure (Or.inr rfl)
  · exact (hnumber _ (Or.inl rfl) _ _).bind fun _ _ ↦ yields_pure (Or.inr rfl)
  · exact (hnumber _ (Or.inr rfl) _ _).bind fun _ _ ↦ yields_pure (Or.inr rfl)
  · exact (hpointer fuel (by omega)).bind fun _ _ ↦
      (hnumber _ (Or.inr rfl) _ _).bind fun _ _ ↦ yields_pure (Or.inr rfl)
  · exact (hstring fuel (by omega)).bind fun _ _ ↦ yields_pure (Or.inr rfl)
  · exact (prints_kputc _).yields.bind fun _ _ ↦ yields_pure (Or.inr rfl)
  · exact (prints_kputc _).yields.bind fun _ _ ↦ yields_pure (Or.inl rfl)
  · exact (prints_kputc _).yields.bind fun _ _ ↦ (prints_kputc _).yields.bind fun _ _ ↦
      yields_pure (Or.inl rfl)

end Arguments

/-! ### The scan -/

section Scan

variable {fmt buf : Memory} {length place fuel slot : ℕ} {text : List Byte} {args : VaList}

/-- A scan that starts behind the NUL reads there. -/
theorem not_completes_behind (hbehind : length < place) :
    ¬ Completes (Event.InFormat length) (kprintfScan fmt buf args fuel place slot) := by
  rintro ⟨hvalue, hwithin⟩
  cases fuel with
  | zero => exact Bool.false_ne_true hvalue
  | succ fuel =>
    have hread : (Event.format place).InFormat length :=
      (within_bind.mp hwithin).1 _ (List.mem_singleton.mpr rfl)
    exact absurd hread (Nat.not_le.mpr hbehind)

/-- A scan that stays inside the string has met whole conversions only. -/
theorem wholeFormat_of_completes (hrest : RestAt fmt length place text)
    (hfuel : text.length + 1 < fuel)
    (hcompletes : Completes (Event.InFormat length)
      (kprintfScan fmt buf args fuel place slot)) : WholeFormat text := by
  induction fuel generalizing place text slot with
  | zero => exact absurd hfuel (Nat.not_lt_zero _)
  | succ fuel ih =>
    cases text with
    | nil => exact WholeFormat.nil
    | cons c text =>
      rw [List.length_cons] at hfuel
      obtain ⟨d, hd, hcompletes⟩ := hcompletes.of_yields hrest.yields_readFormat
      rw [List.headD_cons] at hd
      subst hd
      rw [if_neg hrest.string.cons.2.1] at hcompletes
      by_cases hpercent : d = ascii '%'
      · subst hpercent
        rw [if_neg (by simp)] at hcompletes
        obtain ⟨⟨next, width, pad⟩, hnext, hcompletes⟩ :=
          hcompletes.of_yields (hrest.tail.yields_scanFlags (by omega))
        obtain ⟨conversion, -, hcompletes⟩ := hcompletes.of_yields hnext.yields_readFormat
        obtain ⟨after, hcompletes⟩ := hcompletes.later
        have hlength := length_afterFlags_le text
        cases hflags : afterFlags text with
        | nil =>
          rw [hflags] at hnext
          have hends := hnext.ends
          rw [List.length_nil] at hends
          exact absurd hcompletes (not_completes_behind (by omega))
        | cons d after =>
          rw [hflags] at hnext hlength
          rw [List.length_cons] at hlength
          exact WholeFormat.conversion hflags (ih hnext.tail (by omega) hcompletes)
      · rw [if_pos hpercent] at hcompletes
        obtain ⟨-, hcompletes⟩ := hcompletes.later
        exact WholeFormat.plain hpercent (ih hrest.tail (by omega) hcompletes)

/-- On a whole format the scan returns and stays inside the string. -/
theorem WholeFormat.yields_kprintfScan (hwhole : WholeFormat text) (hargs : args.Terminated)
    (slot : ℕ) :
    ∃ bound, ∀ fuel ≥ bound, ∀ place, RestAt fmt length place text →
      Yields (Event.InFormat length) (fun _ ↦ True)
        (kprintfScan fmt buf args fuel place slot) := by
  induction hwhole generalizing slot with
  | nil =>
    refine ⟨1, fun fuel hfuel place hrest ↦ ?_⟩
    obtain ⟨fuel, rfl⟩ := Nat.exists_eq_add_of_le' hfuel
    refine hrest.yields_readFormat.bind fun c hc ↦ ?_
    rw [List.headD_nil] at hc
    rw [if_pos hc]
    exact yields_pure trivial
  | @plain c text hplain htext ih =>
    obtain ⟨bound, hbound⟩ := ih slot
    refine ⟨bound + 1, fun fuel hfuel place hrest ↦ ?_⟩
    obtain ⟨fuel, rfl⟩ := Nat.exists_eq_add_of_le' (Nat.le_of_add_left_le hfuel)
    refine hrest.yields_readFormat.bind fun d hd ↦ ?_
    rw [List.headD_cons] at hd
    subst hd
    rw [if_neg hrest.string.cons.2.1, if_pos hplain]
    exact (prints_kputc d).yields.bind fun _ _ ↦ hbound fuel (by omega) _ hrest.tail
  | @conversion flagged text c hflags htext ih =>
    obtain ⟨sameBound, hsame⟩ := ih slot
    obtain ⟨nextBound, hnext⟩ := ih (slot + 1)
    have hconversion : ∃ bound, ∀ fuel ≥ bound, ∀ width pad c,
        Yields (Event.InFormat length) (fun next ↦ next = slot ∨ next = slot + 1)
          (convert fuel buf args slot width pad c) := yields_convert hargs slot
    obtain ⟨convertBound, hconvert⟩ := hconversion
    refine ⟨max (max sameBound nextBound) (max convertBound (flagged.length + 1)) + 1,
      fun fuel hfuel place hrest ↦ ?_⟩
    obtain ⟨fuel, rfl⟩ := Nat.exists_eq_add_of_le' (Nat.le_of_add_left_le hfuel)
    refine hrest.yields_readFormat.bind fun d hd ↦ ?_
    rw [List.headD_cons] at hd
    subst hd
    rw [if_neg (by decide), if_neg (by simp)]
    refine (hrest.tail.yields_scanFlags (by omega)).bind ?_
    rintro ⟨behind, width, pad⟩ hbehind
    rw [hflags] at hbehind
    refine hbehind.yields_readFormat.bind fun d _ ↦ ?_
    refine (hconvert fuel (by omega) _ _ _).bind fun after hafter ↦ ?_
    rcases hafter with rfl | rfl
    · exact hsame fuel (by omega) _ hbehind.tail
    · exact hnext fuel (by omega) _ hbehind.tail

/-- The scan returns and reads no byte behind the NUL exactly when every conversion of the format
ends within the format. -/
theorem kprintf_stays_iff (hfmt : CString fmt 0 text) (hargs : args.Terminated) (buf : Memory) :
    (∃ bound, ∀ fuel ≥ bound,
      Completes (Event.InFormat text.length) (kprintf fuel buf fmt args)) ↔ WholeFormat text := by
  have hrest : RestAt fmt text.length 0 text := ⟨hfmt, Nat.zero_add _⟩
  constructor
  · rintro ⟨bound, hbound⟩
    exact wholeFormat_of_completes hrest (by omega : text.length + 1 < bound + text.length + 2)
      (hbound _ (by omega))
  · intro hwhole
    obtain ⟨bound, hbound⟩ := hwhole.yields_kprintfScan hargs 0
    exact ⟨bound, fun fuel hfuel ↦ (hbound fuel hfuel 0 hrest).completes⟩

/-- The scan of a lone `%` does not stay inside the string, with any arguments. -/
theorem kprintf_lone_percent :
    CString (literal "%") 0 [ascii '%'] ∧ VaList.Terminated ⟨fun _ ↦ 0#64, fun _ ↦ none⟩ ∧
      ¬ ∃ bound, ∀ fuel ≥ bound, Completes (Event.InFormat 1)
        (kprintf fuel (fun _ ↦ 0#8) (literal "%") ⟨fun _ ↦ 0#64, fun _ ↦ none⟩) := by
  have hfmt : CString (literal "%") 0 [ascii '%'] := cString_literal (by decide)
  refine ⟨hfmt, fun _ _ hnone ↦ absurd hnone (by simp), ?_⟩
  rintro ⟨bound, hbound⟩
  have hwhole : WholeFormat [ascii '%'] :=
    wholeFormat_of_completes ⟨hfmt, rfl⟩ (by simp : _ < bound + 3) (hbound _ (by omega))
  cases hwhole with
  | plain hplain htext => exact hplain rfl
  | conversion hflags htext => cases hflags

/-- A padded number, a long one, and a percent sign. -/
theorem kprintf_stays_iff_numbers :
    (∃ bound, ∀ fuel ≥ bound, Completes (Event.InFormat 10)
      (kprintf fuel (fun _ ↦ 0#8) (literal "%04x %lu%%") ⟨fun _ ↦ 0#64, fun _ ↦ none⟩)) ↔
      WholeFormat ("%04x %lu%%".toList.map ascii) := by
  have hfmt : CString (literal "%04x %lu%%") 0 ("%04x %lu%%".toList.map ascii) :=
    cString_literal (by decide)
  exact kprintf_stays_iff hfmt (fun _ _ hnone ↦ absurd hnone (by simp)) (fun _ ↦ 0#8)

end Scan

end Colix.Lib
