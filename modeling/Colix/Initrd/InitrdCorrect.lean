import Colix.Initrd.NewcArchive
import Mathlib.Data.List.Forall2

/-!
# The parser inverts the encoding

`initrdScan_entry` follows the scan over one encoded entry, `initrdScan_trailer` over the trailer;
by induction over the archive the scan finds the entries in order. `initrd_inverts_newc` states the
round trip for `initrd_init` and the search of `initrd_find`.
-/

set_option autoImplicit false
set_option relaxedAutoImplicit false

namespace Colix.Initrd

open Foundation

variable {memory later : Memory} {p s endPtr : Word}

/-! ### Helpers of the source -/

theorem toNat_add_lt {x y : Word} (hlt : x.toNat + y.toNat < 2 ^ 64) :
    (x + y).toNat = x.toNat + y.toNat := by
  rw [BitVec.toNat_add, Nat.mod_eq_of_lt hlt]

/-- A digit of either letter case reads as its value. -/
theorem toNat_hexDigit {c : Byte} {digit : ℕ} (hdigit : IsHexDigit c digit) :
    (hexDigit c).toNat = digit := by
  have hbyte := c.isLt
  simp only [hexDigit, BitVec.le_def, BitVec.reduceToNat]
  rcases hdigit with ⟨hlt, hchar⟩ | ⟨hge, hlt, hchar | hchar⟩
  · rw [if_pos (by omega)]
    bv_omega
  · rw [if_neg (by omega), if_pos (by omega)]
    bv_omega
  · rw [if_neg (by omega), if_neg (by omega), if_pos (by omega)]
    bv_omega

/-- One round of the loop shifts the number by a digit. -/
theorem toNat_shift_or {v d : Word32} (hv : v.toNat < 2 ^ 28) (hd : d.toNat < 16) :
    ((v <<< 4) ||| d).toNat = 16 * v.toNat + d.toNat := by
  rw [BitVec.toNat_or, BitVec.toNat_shiftLeft, Nat.mod_eq_of_lt]
  · rw [← Nat.shiftLeft_add_eq_or_of_lt (by omega), Nat.shiftLeft_eq]
    omega
  · rw [Nat.shiftLeft_eq]
    omega

/-- The loop reads a numeral. -/
theorem toNat_hexDigits {numeral : List Byte} {front number : ℕ} {v : Word32}
    (hnumeral : IsHexNumeral front numeral number) (hholds : Holds memory s.toNat numeral)
    (haddress : s.toNat + numeral.length < 2 ^ 64) (hfront : v.toNat = front)
    (hrange : 16 ^ numeral.length * (front + 1) ≤ 2 ^ 32) :
    (hexDigits memory numeral.length s v).toNat = number := by
  induction numeral generalizing s v front with
  | nil =>
    rw [show number = front from hnumeral, ← hfront]
    rfl
  | cons char rest ih =>
    obtain ⟨digit, hdigit, hrest⟩ := hnumeral
    have hvalue := toNat_hexDigit hdigit
    have hlt := hdigit.lt
    have hsmall : 16 * (front + 1) ≤ 2 ^ 32 := by
      refine le_trans ?_ hrange
      rw [List.length_cons, pow_succ]
      exact Nat.mul_le_mul_right _ (Nat.le_mul_of_pos_left _ (Nat.pow_pos (by decide)))
    rw [List.length_cons] at haddress
    have hnext : (s + 1#64).toNat = s.toNat + 1 := toNat_add_lt (by simp; omega)
    rw [List.length_cons, hexDigits, hholds.1]
    refine ih hrest (hnext ▸ hholds.2) (by omega) ?_ ?_
    · rw [toNat_shift_or (by omega) (by omega), hfront, hvalue]
    · calc 16 ^ rest.length * (16 * front + digit + 1)
          ≤ 16 ^ rest.length * (16 * (front + 1)) := Nat.mul_le_mul_left _ (by omega)
        _ = 16 ^ (char :: rest).length * (front + 1) := by
          rw [List.length_cons, pow_succ, Nat.mul_assoc]
        _ ≤ 2 ^ 32 := hrange

theorem toNat_hex8ToU32 {field : List Byte} {number : ℕ} (hfield : IsHex8 field number)
    (hholds : Holds memory s.toNat field) (haddress : s.toNat + 8 < 2 ^ 64) :
    (hex8ToU32 memory s).toNat = number := by
  obtain ⟨hlength, hnumeral⟩ := hfield
  rw [hex8ToU32, ← hlength]
  exact toNat_hexDigits hnumeral hholds (by omega) rfl (by rw [hlength]; decide)

/-- A pointer moved by a size and rounded up to a multiple of four skips the padding. -/
theorem toNat_align4Ptr_add {x : Word} {size : Word32} {padding : ℕ} (hshort : padding < 4)
    (hmultiple : 4 ∣ x.toNat + size.toNat + padding)
    (haddress : x.toNat + size.toNat + padding < 2 ^ 64) :
    (align4Ptr (x + size.setWidth 64)).toNat = x.toNat + size.toNat + padding := by
  have hsize := size.isLt
  have hmoved : (x + size.setWidth 64).toNat = x.toNat + size.toNat := by
    rw [toNat_add_lt (by rw [toNat_setWidth_64]; omega), toNat_setWidth_64]
  have hmask := toNat_and_not_lowMask (by decide : 2 ≤ 64) (x + size.setWidth 64 + 3#64)
  rw [show BitVec.ofNat 64 (2 ^ 2 - 1) = 3#64 from rfl, toNat_add_lt (by simp; omega), hmoved,
    show (3#64).toNat = 3 from rfl] at hmask
  rw [align4Ptr, hmask]
  omega

/-- `memcmp_simple` is zero exactly on equal bytes. -/
theorem memcmpFrom_eq_zero {a b : ℕ → Byte} {count i : ℕ} :
    memcmpFrom a b count i = 0 ↔ ∀ offset < count, a (i + offset) = b (i + offset) := by
  induction count generalizing i with
  | zero => exact iff_of_true rfl fun _ hlt ↦ absurd hlt (Nat.not_lt_zero _)
  | succ count ih =>
    rw [memcmpFrom]
    by_cases heq : a i = b i
    · rw [if_neg (not_not.mpr heq), ih]
      constructor
      · intro hrest offset hoffset
        cases offset with
        | zero => exact heq
        | succ offset =>
          rw [← Nat.add_assoc, Nat.add_right_comm]
          exact hrest offset (by omega)
      · intro hall offset hoffset
        rw [Nat.add_assoc, Nat.add_comm 1]
        exact hall (offset + 1) (by omega)
    · rw [if_pos heq]
      refine iff_of_false (fun hzero ↦ heq (BitVec.eq_of_toNat_eq (by omega))) fun hall ↦ ?_
      exact heq (hall 0 (Nat.zero_lt_succ _))

theorem byteAt_eq {i : ℕ} (haddress : p.toNat + i < 2 ^ 64) :
    byteAt memory p i = memory (p.toNat + i) := by
  have hindex : (BitVec.ofNat 64 i).toNat = i := by
    rw [BitVec.toNat_ofNat, Nat.mod_eq_of_lt (by omega)]
  rw [byteAt, toNat_add_lt (by omega), hindex]

theorem magicMatches_of_holds (hholds : Holds memory p.toNat newcMagic)
    (haddress : p.toNat + 6 < 2 ^ 64) : magicMatches memory p := by
  have hbyte : ∀ i (hi : i < 6), byteAt memory p i = newcMagic[i] := by
    intro i hi
    rw [byteAt_eq (by omega)]
    exact hholds.getElem hi
  exact ⟨hbyte 0 (by decide), hbyte 1 (by decide), hbyte 2 (by decide), hbyte 3 (by decide),
    hbyte 4 (by decide), hbyte 5 (by decide)⟩

/-- The test for the trailer, on a name in memory. -/
theorem isTrailer_iff {name : List Byte} (hholds : Holds memory p.toNat (name ++ [0#8]))
    (haddress : p.toNat + name.length + 1 < 2 ^ 64) :
    (name.length + 1 = 11 ∧
      memcmpSimple (byteAt memory p) (fun i ↦ trailerName.getD i 0#8) 10 = 0) ↔
      name = trailerName := by
  rw [memcmpSimple, memcmpFrom_eq_zero]
  have hbyte : ∀ i (hi : i < name.length), byteAt memory p i = name[i] := by
    intro i hi
    rw [byteAt_eq (by omega), hholds.getElem (by simp; omega), List.getElem_append_left hi]
  constructor
  · rintro ⟨hlength, hequal⟩
    refine List.ext_getElem (by rw [show trailerName.length = 10 from rfl]; omega) ?_
    intro i hname htrailer
    have hi := hequal i (by omega)
    rw [Nat.zero_add, hbyte i hname, List.getD_eq_getElem _ _ htrailer] at hi
    exact hi
  · rintro rfl
    refine ⟨rfl, fun i hi ↦ ?_⟩
    rw [Nat.zero_add, hbyte i hi, List.getD_eq_getElem _ _ hi]

/-- `strcmp_simple` of two strings ends, with zero exactly when they are equal. -/
theorem strcmpSimple_eq {first second : List Byte} {fuel : ℕ} {a b : Word}
    (hfirst : CString memory a.toNat first) (hsecond : CString memory b.toNat second)
    (hrangeFirst : a.toNat + first.length < 2 ^ 64)
    (hrangeSecond : b.toNat + second.length < 2 ^ 64) (hfuel : first.length < fuel) :
    ∃ difference, strcmpSimple memory fuel a b = some difference ∧
      (difference = 0 ↔ first = second) := by
  obtain ⟨fuel, rfl⟩ : ∃ less, fuel = less + 1 := ⟨fuel - 1, by omega⟩
  induction first generalizing second fuel a b with
  | nil =>
    have hnul := hfirst.nil
    refine ⟨_, by rw [strcmpSimple, if_neg fun hboth ↦ hboth.1 hnul], ?_⟩
    cases second with
    | nil => simp [hnul, hsecond.nil]
    | cons char rest =>
      obtain ⟨hchar, hne, -⟩ := hsecond.cons
      have hpositive : char.toNat ≠ 0 := fun hzero ↦ hne (BitVec.eq_of_toNat_eq hzero)
      simp [hnul, hchar]
      omega
  | cons char rest ih =>
    obtain ⟨hchar, hne, hrest⟩ := hfirst.cons
    rw [List.length_cons] at hrangeFirst hfuel
    by_cases hsame : memory a.toNat = memory b.toNat
    · cases second with
      | nil => exact absurd (hchar.symm.trans (hsame.trans hsecond.nil)) hne
      | cons char' rest' =>
        obtain ⟨hchar', hne', hrest'⟩ := hsecond.cons
        rw [List.length_cons] at hrangeSecond
        have hnextA : (a + 1#64).toNat = a.toNat + 1 := toNat_add_lt (by simp; omega)
        have hnextB : (b + 1#64).toNat = b.toNat + 1 := toNat_add_lt (by simp; omega)
        obtain ⟨less, rfl⟩ : ∃ less, fuel = less + 1 := ⟨fuel - 1, by omega⟩
        obtain ⟨difference, hresult, hiff⟩ := ih (a := a + 1#64) (b := b + 1#64)
          (hnextA ▸ hrest) (hnextB ▸ hrest') (by omega) (by omega) less (by omega)
        refine ⟨difference, ?_, ?_⟩
        · rw [strcmpSimple, if_pos ⟨hchar ▸ hne, hchar' ▸ hne', hsame⟩, hresult]
        · rw [hiff, List.cons.injEq, ← hchar, ← hchar', hsame]
          simp
    · refine ⟨_, by rw [strcmpSimple, if_neg fun hboth ↦ hsame hboth.2.2], ?_⟩
      refine iff_of_false (fun hzero ↦ hsame (BitVec.eq_of_toNat_eq (by omega))) ?_
      rintro rfl
      exact hsame (hchar.trans hsecond.cons.1.symm)

/-! ### The scan -/

/-- The entry of the table describes the file, with its name and its data between two addresses. -/
structure Describes (memory : Memory) (low high : ℕ) (found : InitrdFile) (file : NewcFile) :
    Prop where
  name : CString memory found.name.toNat file.name
  size : found.size.toNat = file.data.length
  data : Holds memory found.data.toNat file.data
  name_within : low ≤ found.name.toNat ∧ found.name.toNat + file.name.length < high
  data_within : low ≤ found.data.toNat ∧ found.data.toNat + file.data.length ≤ high

/-- A description depends on the bytes between the two addresses. -/
theorem Describes.congr {low high : ℕ} {found : InitrdFile} {file : NewcFile}
    (hdescribes : Describes memory low high found file)
    (hagree : ∀ position, low ≤ position → position < high →
      later position = memory position) : Describes later low high found file := by
  obtain ⟨hname, hsize, hdata, hnameIn, hdataIn⟩ := hdescribes
  refine ⟨⟨hname.nulFree, hname.holds.congr fun position hge hlt ↦ ?_⟩, hsize,
    hdata.congr fun position hge hlt ↦ hagree position (by omega) (by omega), hnameIn, hdataIn⟩
  rw [List.length_append, List.length_singleton] at hlt
  exact hagree position (by omega) (by omega)

/-- A description within an interval is one within a larger interval. -/
theorem Describes.mono {low high low' high' : ℕ} {found : InitrdFile} {file : NewcFile}
    (hdescribes : Describes memory low high found file) (hlow : low' ≤ low) (hhigh : high ≤ high') :
    Describes memory low' high' found file := by
  obtain ⟨hname, hsize, hdata, hnameIn, hdataIn⟩ := hdescribes
  exact ⟨hname, hsize, hdata, by omega, by omega⟩

/-- What the scan reads at an encoded entry: the magic, the sizes, and the name. -/
theorem IsNewcEntry.reads {name data bytes : List Byte} (hentry : IsNewcEntry name data bytes)
    (hholds : Holds memory p.toNat bytes) (hfits : p.toNat + bytes.length < 2 ^ 64) :
    (p + newcHeaderSize).toNat = p.toNat + 110 ∧ magicMatches memory p ∧
      (hex8ToU32 memory (p + namesizeOffset)).toNat = name.length + 1 ∧
        (hex8ToU32 memory (p + filesizeOffset)).toNat = data.length ∧
          Holds memory (p + newcHeaderSize).toNat (name ++ [0#8]) := by
  obtain ⟨header, namePadding, dataPadding, hheader, hheld, hname, -, -, -, hlength⟩ :=
    hentry.holds hholds
  obtain ⟨hmagic, ⟨size, hsize, hsizeHeld⟩, ⟨nameSize, hnameSize, hnameSizeHeld⟩⟩ :=
    hheader.holds hheld
  have hbody : (p + newcHeaderSize).toNat = p.toNat + 110 := toNat_add_lt (by simp; omega)
  have hsizeAt : (p + filesizeOffset).toNat = p.toNat + 54 := toNat_add_lt (by simp; omega)
  have hnameSizeAt : (p + namesizeOffset).toNat = p.toNat + 94 := toNat_add_lt (by simp; omega)
  refine ⟨hbody, magicMatches_of_holds hmagic (by omega), ?_, ?_, hbody ▸ hname⟩
  · exact toNat_hex8ToU32 hnameSize (hnameSizeAt ▸ hnameSizeHeld) (by omega)
  · exact toNat_hex8ToU32 hsize (hsizeAt ▸ hsizeHeld) (by omega)

/-- The scan takes the trailer for its end. -/
theorem initrdScan_trailer {bytes : List Byte} (hentry : IsNewcEntry trailerName [] bytes)
    (hholds : Holds memory p.toNat bytes) (hfits : p.toNat + bytes.length ≤ endPtr.toNat)
    (fuel : ℕ) (files : List InitrdFile) :
    initrdScan memory endPtr (fuel + 1) p files = some files := by
  have hend := endPtr.isLt
  have hlong := hentry.length.2
  obtain ⟨hbody, hmagic, hnamesize, -, hname⟩ := hentry.reads hholds (by omega)
  have hroom : p + newcHeaderSize ≤ endPtr := by
    rw [BitVec.le_def, hbody]
    omega
  have htrailer := (isTrailer_iff hname (by omega)).mpr rfl
  have hsize : hex8ToU32 memory (p + namesizeOffset) = 11#32 := BitVec.eq_of_toNat_eq hnamesize
  rw [initrdScan, if_pos hroom, if_pos hmagic, if_pos ⟨hsize, htrailer.2⟩]

/-- The scan over one entry adds its description to the table and goes on behind it. -/
theorem initrdScan_entry {file : NewcFile} {bytes : List Byte}
    (hentry : IsNewcEntry file.name file.data bytes) (hholds : Holds memory p.toNat bytes)
    (haligned : 4 ∣ p.toNat) (hfits : p.toNat + bytes.length ≤ endPtr.toNat) (fuel : ℕ)
    (files : List InitrdFile) :
    ∃ found next, initrdScan memory endPtr (fuel + 1) p files =
        initrdScan memory endPtr fuel next (addFile files found) ∧
      next.toNat = p.toNat + bytes.length ∧
        Describes memory p.toNat (p.toNat + bytes.length) found file := by
  have hend := endPtr.isLt
  obtain ⟨hbody, hmagic, hnamesize, hfilesize, hname⟩ := hentry.reads hholds (by omega)
  obtain ⟨header, namePadding, dataPadding, -, -, -, hnamePad, hdata, hdataPad, hlength⟩ :=
    hentry.holds hholds
  have hroom : p + newcHeaderSize ≤ endPtr := by
    rw [BitVec.le_def, hbody]
    omega
  have hnotTrailer : ¬ (hex8ToU32 memory (p + namesizeOffset) = 11#32 ∧
      memcmpSimple (byteAt memory (p + newcHeaderSize))
        (fun i ↦ trailerName.getD i 0#8) 10 = 0) := by
    rintro ⟨hsize, hequal⟩
    rw [hsize] at hnamesize
    exact file.not_trailer ((isTrailer_iff hname (by omega)).mp ⟨hnamesize.symm, hequal⟩)
  -- the data and the next header stand behind the padding
  have hname4 := hnamePad.2
  have hdata4 := hdataPad.2
  have hdataStart := toNat_align4Ptr_add hnamePad.1
    (by rw [hbody, hnamesize]; omega) (by rw [hbody, hnamesize]; omega)
  rw [hbody, hnamesize] at hdataStart
  have hnext := toNat_align4Ptr_add hdataPad.1
    (by rw [hdataStart, hfilesize]; omega) (by rw [hdataStart, hfilesize]; omega)
  rw [hdataStart, hfilesize] at hnext
  have hwithin : ¬ endPtr < align4Ptr (align4Ptr (p + newcHeaderSize +
      (hex8ToU32 memory (p + namesizeOffset)).setWidth 64) +
        (hex8ToU32 memory (p + filesizeOffset)).setWidth 64) := by
    rw [BitVec.not_lt, BitVec.le_def, hnext]
    omega
  refine ⟨⟨p + newcHeaderSize, hex8ToU32 memory (p + filesizeOffset),
    align4Ptr (p + newcHeaderSize + (hex8ToU32 memory (p + namesizeOffset)).setWidth 64)⟩, _, ?_,
      by rw [hnext]; omega, ?_⟩
  · rw [initrdScan, if_pos hroom, if_pos hmagic, if_neg hnotTrailer, if_neg hwithin]
  · refine ⟨⟨file.nul_free, hname⟩, hfilesize, ?_, ?_, ?_⟩
    · rw [hdataStart]
      exact hdata
    · rw [hbody]
      omega
    · rw [hdataStart]
      omega

/-- The table after another file: the first 128 of the files found. -/
theorem forall₂_addFile {low high : ℕ} {files : List InitrdFile} {done : List NewcFile}
    {found : InitrdFile} {file : NewcFile}
    (hfiles : List.Forall₂ (Describes memory low high) files (done.take initrdMaxFiles))
    (hfound : Describes memory low high found file) :
    List.Forall₂ (Describes memory low high) (addFile files found)
      ((done ++ [file]).take initrdMaxFiles) := by
  have hlength := hfiles.length_eq
  rw [List.length_take] at hlength
  rw [addFile]
  by_cases hroom : files.length < initrdMaxFiles
  · have hall : done.length < initrdMaxFiles := by omega
    rw [if_pos hroom, List.take_of_length_le (by simp; omega)]
    rw [List.take_of_length_le hall.le] at hfiles
    exact List.rel_append hfiles (List.Forall₂.cons hfound List.Forall₂.nil)
  · rw [if_neg hroom, List.take_append_of_le_length (by omega)]
    exact hfiles

/-- The scan over an encoded archive finds the first 128 of its files. -/
theorem initrdScan_archive {low : ℕ} {entries done : List NewcFile} {archive : List Byte}
    {files : List InitrdFile} {fuel : ℕ} (harchive : IsNewcArchive entries archive)
    (hholds : Holds memory p.toNat archive) (haligned : 4 ∣ p.toNat) (hlow : low ≤ p.toNat)
    (hend : p.toNat + archive.length = endPtr.toNat) (hfuel : archive.length < fuel)
    (hfiles : List.Forall₂ (Describes memory low endPtr.toNat) files (done.take initrdMaxFiles)) :
    ∃ table, initrdScan memory endPtr fuel p files = some table ∧
      List.Forall₂ (Describes memory low endPtr.toNat) table
        ((done ++ entries).take initrdMaxFiles) := by
  induction harchive generalizing p done files fuel with
  | trailer trailing hentry =>
    obtain ⟨fuel, rfl⟩ : ∃ less, fuel = less + 1 := ⟨fuel - 1, by omega⟩
    rw [List.length_append] at hend
    refine ⟨files, ?_, ?_⟩
    · exact initrdScan_trailer hentry (holds_append.mp hholds).1 (by omega) fuel files
    · rw [List.append_nil]
      exact hfiles
  | entry hentry _ ih =>
    obtain ⟨fuel, rfl⟩ : ∃ less, fuel = less + 1 := ⟨fuel - 1, by omega⟩
    obtain ⟨hheld, hrest⟩ := holds_append.mp hholds
    rw [List.length_append] at hend hfuel
    obtain ⟨hmultiple, hlong⟩ := hentry.length
    obtain ⟨found, next, hscan, hnext, hfound⟩ :=
      initrdScan_entry hentry hheld haligned (by omega : _ ≤ endPtr.toNat) fuel files
    obtain ⟨table, htable, hdescribes⟩ := ih (p := next) (hnext ▸ hrest) (by omega) (by omega)
      (by omega) (show _ < fuel by omega)
      (forall₂_addFile hfiles (hfound.mono hlow (by omega)))
    refine ⟨table, hscan.trans htable, ?_⟩
    rw [List.append_assoc] at hdescribes
    exact hdescribes

/-! ### The search -/

/-- The search gives the index of the first described file of the name. -/
theorem findFrom_eq {low high : ℕ} {files : List InitrdFile} {entries : List NewcFile}
    {name : List Byte} (hfiles : List.Forall₂ (Describes memory low high) files entries)
    (hhigh : high < 2 ^ 64) (hname : CString memory s.toNat name)
    (hrange : s.toNat + name.length < 2 ^ 64) (i : ℕ) :
    findFrom memory s files i =
      some ((entries.findIdx? (fun file ↦ file.name = name)).map (· + i)) := by
  induction hfiles generalizing i with
  | nil => rfl
  | @cons found file files entries hfile _ ih =>
    have hwithin := hfile.name_within
    obtain ⟨difference, hresult, hiff⟩ := strcmpSimple_eq hfile.name hname (by omega)
      hrange (by omega : file.name.length < 2 ^ 64)
    rw [findFrom, hresult, List.findIdx?_cons]
    by_cases hequal : file.name = name
    · simp [hequal, hiff.mpr hequal]
    · have hdifferent : difference ≠ 0 := fun hzero ↦ hequal (hiff.mp hzero)
      simp only [if_neg hdifferent, ih]
      simp [hequal, Function.comp_def, Nat.add_assoc, Nat.add_comm 1]

/-- The round trip. After `initrd_init` over an encoded archive the table describes the first 128 of
its files in order; as long as the archive stays in memory, `initrd_find` gives the index of the
first of them with the name, or NULL when there is none. -/
theorem initrd_inverts_newc {start : Word} {entries : List NewcFile} {archive : List Byte}
    (harchive : IsNewcArchive entries archive) (hholds : Holds memory start.toNat archive)
    (haligned : 4 ∣ start.toNat) (hend : start.toNat + archive.length = endPtr.toNat) :
    ∃ files, initrdInit memory start endPtr = some files ∧
      List.Forall₂ (Describes memory start.toNat endPtr.toNat) files
        (entries.take initrdMaxFiles) ∧
      ∀ (later : Memory) (s : Word) (name : List Byte),
        (∀ position, start.toNat ≤ position → position < endPtr.toNat →
          later position = memory position) →
        CString later s.toNat name → s.toNat + name.length < 2 ^ 64 →
          initrdFind later files s =
            some ((entries.take initrdMaxFiles).findIdx? fun file ↦ file.name = name) := by
  have hendPtr := endPtr.isLt
  have hempty : List.Forall₂ (Describes memory start.toNat endPtr.toNat) []
      (List.take initrdMaxFiles []) := List.Forall₂.nil
  obtain ⟨files, hinit, hfiles⟩ := initrdScan_archive harchive hholds haligned le_rfl hend
    (by omega : archive.length < endPtr.toNat + 1) hempty
  rw [List.nil_append] at hfiles
  refine ⟨files, hinit, hfiles, fun later s name hagree hname hrange ↦ ?_⟩
  have hlater := hfiles.imp fun found file hdescribes ↦ hdescribes.congr hagree
  rw [initrdFind, findFrom_eq hlater hendPtr hname hrange 0]
  simp

/-- The file `a` that holds `hi`. -/
def helloFile : NewcFile where
  name := [0x61#8]
  data := [0x68#8, 0x69#8]
  name_ne_nil := by decide
  nul_free := by decide
  not_trailer := by decide

/-- The file `bc` that holds `one`. -/
def oneFile : NewcFile where
  name := [0x62#8, 0x63#8]
  data := [0x6F#8, 0x6E#8, 0x65#8]
  name_ne_nil := by decide
  nul_free := by decide
  not_trailer := by decide

/-- The archive of both at 4096. The names are padded by 0 and 3 bytes, the data by 2 and 1. -/
def twoFileMemory : Memory := fun position ↦
  (newcArchive [helloFile, oneFile]).getD (position - 4096) 0#8

/-- Both files are found, the second by its name in the archive. -/
theorem initrd_inverts_newc_two : ∃ files,
    initrdInit twoFileMemory 4096#64 4456#64 = some files ∧
      List.Forall₂ (Describes twoFileMemory 4096 4456) files [helloFile, oneFile] ∧
        initrdFind twoFileMemory files 4322#64 = some (some 1) := by
  have hlengths : ∀ file ∈ [helloFile, oneFile],
      file.name.length + 1 < 2 ^ 32 ∧ file.data.length < 2 ^ 32 := by
    decide
  have hholds : Holds twoFileMemory (4096#64).toNat (newcArchive [helloFile, oneFile]) := by
    refine holds_of_getElem fun index hindex ↦ ?_
    change (newcArchive [helloFile, oneFile]).getD (4096 + index - 4096) 0#8 = _
    rw [Nat.add_sub_cancel_left, List.getD_eq_getElem _ _ hindex]
  have hend : (4096#64).toNat + (newcArchive [helloFile, oneFile]).length = (4456#64).toNat := by
    simp only [newcArchive, newcEntry, newcHeader, zeroPadding, length_hexNumeral,
      List.length_append, List.length_replicate]
    rfl
  obtain ⟨files, hinit, hfiles, hfind⟩ := initrd_inverts_newc
    (isNewcArchive_newcArchive hlengths) hholds (by decide) hend
  have hname : CString twoFileMemory (4322#64).toNat oneFile.name := by
    refine ⟨by decide, ?_, ?_, ?_, trivial⟩ <;> decide +kernel
  refine ⟨files, hinit, hfiles, ?_⟩
  rw [hfind twoFileMemory 4322#64 oneFile.name (fun _ _ _ ↦ rfl) hname (by decide)]
  decide

end Colix.Initrd
