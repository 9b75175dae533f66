import Colix.Initrd.Reads

/-!
# Reads inside the archive

`ReadsArchiveOnly` says that `initrd_init` and every later `initrd_find` read inside the archive,
and `ReadsBounded` is the condition on its bytes: 32 of them for the dump, a comparison with the
trailer that ends inside, and a NUL in each recorded name. `readsArchiveOnly_iff` says that they
agree.
-/

set_option autoImplicit false
set_option relaxedAutoImplicit false

namespace Colix.Initrd

open Foundation

/-! ### The scan -/

section Scan

variable {memory : Memory} {start endPtr p next : Word} {files table : List InitrdFile}

/-- The reads of one iteration, and those of the rest of the scan. -/
theorem within_scanTraced_succ (hlow : start.toNat ≤ p.toNat) (hp : p.toNat < 2 ^ 32) (fuel : ℕ) :
    Traced.Within (InArchive start endPtr) (scanTraced memory endPtr (fuel + 1) p files) ↔
      (HasHeader memory endPtr p → TrailerInside memory endPtr p) ∧
        ∀ next, nextHeader memory endPtr p = some next →
          Traced.Within (InArchive start endPtr)
            (scanTraced memory endPtr fuel next (addFile files (entryAt memory p))) := by
  have hname : (p + newcHeaderSize).toNat = p.toNat + 110 :=
    toNat_add_lt (show p.toNat + (110#64).toNat < 2 ^ 64 from by simp; omega)
  rw [scanTraced]
  by_cases hroom : p + newcHeaderSize ≤ endPtr
  · have hheaderEnd : p.toNat + 110 ≤ endPtr.toNat := hname ▸ BitVec.le_def.mp hroom
    have hfield : ∀ offset : Word, offset.toNat + 8 ≤ 110 →
        Traced.Within (InArchive start endPtr) (hex8Traced memory (p + offset)) := by
      intro offset hoffset
      have hplace : (p + offset).toNat = p.toNat + offset.toNat := toNat_add_lt (by omega)
      exact within_hexTraced (by omega) (by omega)
    rw [if_pos hroom, Traced.within_bind, value_magicTraced]
    simp only [Option.some.injEq, forall_eq']
    rw [and_iff_right (within_magicTraced hlow (by rw [show newcMagic.length = 6 from rfl]; omega))]
    by_cases hmagic : magicMatches memory p
    · rw [if_pos (decide_eq_true hmagic), Traced.within_bind,
        and_iff_right (hfield _ (by decide)), value_hex8Traced]
      simp only [Option.some.injEq, forall_eq']
      rw [Traced.within_bind, and_iff_right (hfield _ (by decide)), value_hex8Traced]
      simp only [Option.some.injEq, forall_eq']
      rw [Traced.within_bind, within_trailerTraced hlow (by omega), value_trailerTraced]
      simp only [Option.some.injEq, forall_eq']
      refine and_congr (imp_iff_right ⟨hroom, hmagic⟩).symm ?_
      by_cases htrailer : IsTrailer memory p
      · have hlast : nextHeader memory endPtr p = none := if_neg fun hall ↦ hall.2.2.1 htrailer
        rw [if_pos (decide_eq_true htrailer), Traced.within_pure, hlast]
        simp
      · rw [if_neg (by simpa using htrailer)]
        by_cases hpast : endPtr < (entryAt memory p).paddedEnd
        · have hlast : nextHeader memory endPtr p = none :=
            if_neg fun hall ↦ absurd hpast (BitVec.not_lt.mpr hall.2.2.2)
          refine iff_of_true ?_ fun next hnext ↦ absurd (hlast.symm.trans hnext) (by simp)
          exact (congrArg (Traced.Within _) (if_pos hpast)).mpr
            ((Traced.within_pure files).mpr trivial)
        · have hgoes : nextHeader memory endPtr p = some (entryAt memory p).paddedEnd :=
            if_pos ⟨hroom, hmagic, htrailer, BitVec.not_lt.mp hpast⟩
          rw [hgoes]
          simp only [Option.some.injEq, forall_eq']
          exact iff_of_eq (congrArg (Traced.Within _) (if_neg hpast))
    · have hlast : nextHeader memory endPtr p = none := if_neg fun hall ↦ hmagic hall.2.1
      rw [if_neg (by simpa using hmagic), Traced.within_pure, hlast]
      simp [HasHeader, hmagic]
  · have hlast : nextHeader memory endPtr p = none := if_neg fun hall ↦ hroom hall.1
    rw [if_neg hroom, Traced.within_pure, hlast]
    simp [HasHeader, hroom]

/-- The scan reads inside the archive exactly when each of its comparisons with the trailer does. -/
theorem within_scanTraced {fuel : ℕ} (hlow : start.toNat ≤ p.toNat) (hp : p.toNat < 2 ^ 32)
    (hend : endPtr.toNat < 2 ^ 32) (hpositive : 0 < fuel) (hfuel : endPtr.toNat < p.toNat + fuel) :
    Traced.Within (InArchive start endPtr) (scanTraced memory endPtr fuel p files) ↔
      ∀ number place, placeAt (nextHeader memory endPtr) p number = some place →
        HasHeader memory endPtr place → TrailerInside memory endPtr place := by
  induction fuel generalizing p files with
  | zero => exact absurd hpositive (Nat.lt_irrefl 0)
  | succ fuel ih =>
    rw [within_scanTraced_succ hlow hp]
    cases hnext : nextHeader memory endPtr p with
    | none =>
      constructor
      · rintro ⟨hfirst, -⟩ number place hplace
        cases number with
        | zero =>
          cases hplace
          exact hfirst
        | succ number =>
          exact absurd ((placeAt_succ_of_none hnext number).symm.trans hplace) (by simp)
      · exact fun hall ↦ ⟨hall 0 p rfl, fun next hnone ↦ absurd hnone (by simp)⟩
    | some next =>
      obtain ⟨hplaces, hfits⟩ := nextHeader_bounds hp hnext
      have hforward := hplaces.lt
      have hrest : Traced.Within (InArchive start endPtr)
          (scanTraced memory endPtr fuel next (addFile files (entryAt memory p))) ↔ _ :=
        ih (by omega) (by omega) (by omega) (by omega)
      simp only [Option.some.injEq, forall_eq']
      rw [hrest]
      constructor
      · rintro ⟨hfirst, hlater⟩ number place hplace
        cases number with
        | zero =>
          cases hplace
          exact hfirst
        | succ number => exact hlater number place ((placeAt_succ hnext number).symm.trans hplace)
      · intro hall
        refine ⟨hall 0 p rfl, fun number place hplace ↦ hall (number + 1) place ?_⟩
        exact (placeAt_succ hnext number).trans hplace

/-- The table holds the entries of the first headers, as many as there is room for. -/
theorem mem_initrdScan {fuel : ℕ} (hscan : initrdScan memory endPtr fuel p files = some table)
    (file : InitrdFile) : file ∈ table ↔ file ∈ files ∨ ∃ number place next,
      files.length + number < initrdMaxFiles ∧
        placeAt (nextHeader memory endPtr) p number = some place ∧
          nextHeader memory endPtr place = some next ∧ file = entryAt memory place := by
  induction fuel generalizing p files with
  | zero => exact absurd hscan (by simp [initrdScan])
  | succ fuel ih =>
    rw [initrdScan_succ] at hscan
    cases hnext : nextHeader memory endPtr p with
    | none =>
      rw [hnext, Option.some.injEq] at hscan
      subst hscan
      refine ⟨Or.inl, ?_⟩
      rintro (hmem | ⟨number, place, later, -, hplace, hlater, -⟩)
      · exact hmem
      · cases number with
        | zero =>
          cases hplace
          exact absurd (hnext.symm.trans hlater) (by simp)
        | succ number =>
          exact absurd ((placeAt_succ_of_none hnext number).symm.trans hplace) (by simp)
    | some next =>
      rw [hnext] at hscan
      rw [ih hscan, addFile]
      by_cases hroom : files.length < initrdMaxFiles
      · rw [if_pos hroom, List.mem_append, List.mem_singleton, List.length_append,
          List.length_singleton, or_assoc]
        refine or_congr_right ?_
        constructor
        · rintro (rfl | ⟨number, place, later, hnumber, hplace, hlater, hfile⟩)
          · exact ⟨0, p, next, hroom, rfl, hnext, rfl⟩
          · exact ⟨number + 1, place, later, by omega, (placeAt_succ hnext number).trans hplace,
              hlater, hfile⟩
        · rintro ⟨number, place, later, hnumber, hplace, hlater, hfile⟩
          cases number with
          | zero =>
            cases hplace
            exact Or.inl hfile
          | succ number =>
            exact Or.inr ⟨number, place, later, by omega,
              (placeAt_succ hnext number).symm.trans hplace, hlater, hfile⟩
      · rw [if_neg hroom]
        refine or_congr_right ?_
        constructor
        · rintro ⟨number, place, later, hnumber, -⟩
          omega
        · rintro ⟨number, place, later, hnumber, -⟩
          omega

end Scan

/-! ### The comparison of names -/

section Names

variable {memory : Memory} {start endPtr a b s : Word} {files : List InitrdFile}
  {allowed : Read → Prop}

/-- `strcmp_simple` stops at a NUL in the archive. -/
theorem within_strcmpTraced {k fuel : ℕ} (hlow : start.toNat ≤ a.toNat)
    (hinside : a.toNat + k < endPtr.toNat) (hnul : memory (a.toNat + k) = 0#8) :
    Traced.Within (InArchive start endPtr) (strcmpTraced memory fuel a b) := by
  induction k generalizing fuel a b with
  | zero =>
    cases fuel with
    | zero => exact (Traced.within_ofOption none).mpr trivial
    | succ fuel =>
      rw [strcmpTraced, Traced.within_bind, readArchive, Traced.within_access,
        List.forall_mem_singleton, Traced.value_access]
      refine ⟨⟨hlow, hinside⟩, fun first hfirst ↦ ?_⟩
      cases hfirst
      rw [Traced.within_bind, readArgument, Traced.within_access, List.forall_mem_singleton]
      refine ⟨trivial, fun second _ ↦ ?_⟩
      rw [if_neg fun hall ↦ hall.1 hnul]
      exact (Traced.within_pure _).mpr trivial
  | succ k ih =>
    cases fuel with
    | zero => exact (Traced.within_ofOption none).mpr trivial
    | succ fuel =>
      have hend := endPtr.isLt
      have hnext : (a + 1#64).toNat = a.toNat + 1 :=
        toNat_add_lt (show a.toNat + (1#64).toNat < 2 ^ 64 from by simp; omega)
      rw [strcmpTraced, Traced.within_bind, readArchive, Traced.within_access,
        List.forall_mem_singleton]
      refine ⟨⟨hlow, by omega⟩, fun first _ ↦ ?_⟩
      rw [Traced.within_bind, readArgument, Traced.within_access, List.forall_mem_singleton]
      refine ⟨trivial, fun second _ ↦ ?_⟩
      split
      · refine ih (by omega) (by omega) ?_
        rw [hnext, Nat.add_assoc, Nat.add_comm 1]
        exact hnul
      · exact (Traced.within_pure _).mpr trivial

/-- `strcmp_simple` reads on as long as the strings agree. -/
theorem allowed_of_within_strcmpTraced {length fuel : ℕ} (hfuel : length < fuel)
    (hfirst : a.toNat + length < 2 ^ 64) (hsecond : b.toNat + length < 2 ^ 64)
    (hagree : ∀ i < length, memory (a.toNat + i) ≠ 0#8 ∧
      memory (b.toNat + i) = memory (a.toNat + i))
    (hwithin : Traced.Within allowed (strcmpTraced memory fuel a b)) :
    allowed (.archive (a.toNat + length)) := by
  induction length generalizing fuel a b with
  | zero =>
    obtain ⟨fuel, rfl⟩ : ∃ less, fuel = less + 1 := ⟨fuel - 1, by omega⟩
    rw [strcmpTraced, Traced.within_bind, readArchive, Traced.within_access,
      List.forall_mem_singleton] at hwithin
    exact hwithin.1
  | succ length ih =>
    obtain ⟨fuel, rfl⟩ : ∃ less, fuel = less + 1 := ⟨fuel - 1, by omega⟩
    have hnextA : (a + 1#64).toNat = a.toNat + 1 :=
      toNat_add_lt (show a.toNat + (1#64).toNat < 2 ^ 64 from by simp; omega)
    have hnextB : (b + 1#64).toNat = b.toNat + 1 :=
      toNat_add_lt (show b.toNat + (1#64).toNat < 2 ^ 64 from by simp; omega)
    obtain ⟨hne, hsame⟩ := hagree 0 (Nat.zero_lt_succ length)
    rw [Nat.add_zero] at hne hsame
    rw [Nat.add_zero] at hsame
    simp only [strcmpTraced, readArchive, readArgument, Traced.within_bind, Traced.value_access,
      Option.some.injEq, forall_eq'] at hwithin
    have hloops : memory a.toNat ≠ 0#8 ∧ memory b.toNat ≠ 0#8 ∧
        memory a.toNat = memory b.toNat := ⟨hne, hsame ▸ hne, hsame.symm⟩
    rw [if_pos hloops] at hwithin
    have hrest := ih (by omega) (by omega) (by omega) (fun i hi ↦ ?_) hwithin.2.2
    · rw [hnextA, Nat.add_assoc, Nat.add_comm 1] at hrest
      exact hrest
    · rw [hnextA, hnextB, Nat.add_assoc, Nat.add_assoc, Nat.add_comm 1]
      exact hagree (i + 1) (by omega)

/-- The search stays inside when every recorded name has its NUL inside. -/
theorem within_findTraced {i : ℕ} (hnames : ∀ file ∈ files, start.toNat ≤ file.name.toNat ∧
      ∃ k, file.name.toNat + k < endPtr.toNat ∧ memory (file.name.toNat + k) = 0#8) :
    Traced.Within (InArchive start endPtr) (findTraced memory s files i) := by
  induction files generalizing i with
  | nil => exact (Traced.within_pure none).mpr trivial
  | cons file rest ih =>
    obtain ⟨hlow, k, hinside, hnul⟩ := hnames file List.mem_cons_self
    rw [findTraced, Traced.within_bind]
    refine ⟨within_strcmpTraced hlow hinside hnul, fun difference _ ↦ ?_⟩
    split
    · exact (Traced.within_pure _).mpr trivial
    · exact ih fun later hlater ↦ hnames later (List.mem_cons_of_mem file hlater)

/-- The search comes to a name when it passes those before it. -/
theorem within_strcmpTraced_of_find {front rest : List InitrdFile} {file : InitrdFile} {i : ℕ}
    (hpasses : ∀ before ∈ front, ∃ difference,
      strcmpSimple memory (2 ^ 64) before.name s = some difference ∧ difference ≠ 0)
    (hwithin : Traced.Within allowed (findTraced memory s (front ++ file :: rest) i)) :
    Traced.Within allowed (strcmpTraced memory (2 ^ 64) file.name s) := by
  induction front generalizing i with
  | nil =>
    rw [List.nil_append, findTraced, Traced.within_bind] at hwithin
    exact hwithin.1
  | cons before front ih =>
    obtain ⟨difference, hresult, hne⟩ := hpasses before List.mem_cons_self
    rw [List.cons_append, findTraced, Traced.within_bind, value_strcmpTraced, hresult] at hwithin
    have hrest := hwithin.2 difference rfl
    rw [if_neg hne] at hrest
    exact ih (fun later hlater ↦ hpasses later (List.mem_cons_of_mem before hlater)) hrest

/-- A string ends at its first NUL. -/
theorem exists_cstring {address k : ℕ} (hnul : memory (address + k) = 0#8) :
    ∃ text, CString memory address text ∧ text.length ≤ k := by
  induction k generalizing address with
  | zero => exact ⟨[], ⟨List.not_mem_nil, hnul, trivial⟩, le_refl 0⟩
  | succ k ih =>
    by_cases hfirst : memory address = 0#8
    · exact ⟨[], ⟨List.not_mem_nil, hfirst, trivial⟩, Nat.zero_le _⟩
    · have hnext : memory (address + 1 + k) = 0#8 := by
        rw [Nat.add_assoc, Nat.add_comm 1]
        exact hnul
      obtain ⟨text, ⟨hfree, hholds⟩, hlength⟩ := ih hnext
      refine ⟨memory address :: text, ⟨?_, rfl, hholds⟩, Nat.succ_le_succ hlength⟩
      rw [List.mem_cons, not_or]
      exact ⟨Ne.symm hfirst, hfree⟩

end Names

/-! ### A string of the caller that goes on beyond the archive -/

section Caller

variable {memory : Memory} {first length long address : ℕ}

/-- The bytes from `first` on, filled up to `long` characters, and a NUL. -/
def callerByte (memory : Memory) (first length long i : ℕ) : Byte :=
  if i < length then memory (first + i) else if i < long then 1#8 else 0#8

/-- Memory with the bytes of a string from an address on. -/
def withString (memory : Memory) (address : ℕ) (bytes : ℕ → Byte) : Memory := fun position ↦
  if position < address then memory position else bytes (position - address)

theorem withString_apply_of_lt {bytes : ℕ → Byte} {position : ℕ} (hlt : position < address) :
    withString memory address bytes position = memory position :=
  if_pos hlt

theorem withString_apply_add (bytes : ℕ → Byte) (i : ℕ) :
    withString memory address bytes (address + i) = bytes i := by
  rw [withString, if_neg (by omega), Nat.add_sub_cancel_left]

/-- Without a NUL among the bytes this is a string of the given length. -/
theorem cstring_callerByte (hbytes : ∀ i < length, memory (first + i) ≠ 0#8)
    (hlong : length ≤ long) :
    ∃ name, CString (withString memory address (callerByte memory first length long)) address name ∧
      name.length = long := by
  have hcharacter : ∀ i < long, callerByte memory first length long i ≠ 0#8 := by
    intro i hi
    rw [callerByte]
    by_cases hinside : i < length
    · rw [if_pos hinside]
      exact hbytes i hinside
    · rw [if_neg hinside, if_pos hi]
      decide
  have hend : callerByte memory first length long long = 0#8 := by
    rw [callerByte, if_neg (by omega), if_neg (Nat.lt_irrefl long)]
  refine ⟨(List.range long).map (callerByte memory first length long), ⟨?_, ?_⟩, by simp⟩
  · rw [List.mem_map]
    rintro ⟨i, hi, hzero⟩
    exact hcharacter i (List.mem_range.mp hi) hzero
  · refine holds_of_getElem fun index hindex ↦ ?_
    rw [withString_apply_add]
    rw [List.length_append, List.length_map, List.length_range, List.length_singleton] at hindex
    by_cases hlast : index = long
    · subst hlast
      rw [hend, List.getElem_append_right (by simp)]
      simp
    · rw [List.getElem_append_left (by simp; omega), List.getElem_map, List.getElem_range]

end Caller

/-! ### The exact condition -/

/-- `initrd_init` and every later `initrd_find` of a NUL-terminated name read inside the archive.
Later, the archive still stands in memory, and the name anywhere. -/
structure ReadsArchiveOnly (memory : Memory) (start endPtr : Word) : Prop where
  init : Traced.Within (InArchive start endPtr) (initTraced memory start endPtr)
  find : ∀ files, initrdInit memory start endPtr = some files →
    ∀ (later : Memory) (s : Word) (name : List Byte),
      (∀ position, start.toNat ≤ position → position < endPtr.toNat →
        later position = memory position) →
      CString later s.toNat name → s.toNat + name.length < 2 ^ 64 →
        Traced.Within (InArchive start endPtr) (findTraced later s files 0)

/-- The archive has the 32 bytes of the dump; where a header gives the size of the trailer's name,
the archive ends only after the bytes there have differed from it or matched; and each of the first
128 entries has a NUL between its name and the end of the archive. -/
structure ReadsBounded (memory : Memory) (start endPtr : Word) : Prop where
  dump : start.toNat + 32 ≤ endPtr.toNat
  trailer : ∀ number place, placeAt (nextHeader memory endPtr) start number = some place →
    HasHeader memory endPtr place → TrailerInside memory endPtr place
  names : ∀ number < initrdMaxFiles, ∀ place next,
    placeAt (nextHeader memory endPtr) start number = some place →
      nextHeader memory endPtr place = some next →
        ∃ k, place.toNat + 110 + k < endPtr.toNat ∧ memory (place.toNat + 110 + k) = 0#8

section Iff

variable {memory : Memory} {start endPtr : Word} {files : List InitrdFile}

/-- The dump is inside when the archive has 32 bytes. -/
theorem within_dump (hstart : start.toNat < 2 ^ 32) : (∀ place ∈ (List.range 32).map fun i ↦
      Read.archive (start + BitVec.ofNat 64 i).toNat, InArchive start endPtr place) ↔
    start.toNat + 32 ≤ endPtr.toNat := by
  have hplace : ∀ i < 32, (start + BitVec.ofNat 64 i).toNat = start.toNat + i := by
    intro i hi
    have hindex : (BitVec.ofNat 64 i).toNat = i := by
      rw [BitVec.toNat_ofNat, Nat.mod_eq_of_lt (by omega)]
    rw [toNat_add_lt (by omega), hindex]
  constructor
  · intro hall
    have hlast := hall (.archive (start + BitVec.ofNat 64 31).toNat)
      (List.mem_map.mpr ⟨31, List.mem_range.mpr (by decide), rfl⟩)
    rw [hplace 31 (by decide)] at hlast
    have hinside := hlast.2
    omega
  · intro hdump place hplaceMem
    obtain ⟨i, hi, rfl⟩ := List.mem_map.mp hplaceMem
    rw [List.mem_range] at hi
    rw [hplace i hi]
    exact ⟨by omega, by omega⟩

/-- The reads of `initrd_init`. -/
theorem within_initTraced (hstart : start.toNat < 2 ^ 32) (hend : endPtr.toNat < 2 ^ 32) :
    Traced.Within (InArchive start endPtr) (initTraced memory start endPtr) ↔
      start.toNat + 32 ≤ endPtr.toNat ∧
        ∀ number place, placeAt (nextHeader memory endPtr) start number = some place →
          HasHeader memory endPtr place → TrailerInside memory endPtr place := by
  rw [initTraced, Traced.within_bind, Traced.within_access, within_dump hstart,
    Traced.value_access]
  simp only [forall_const]
  rw [within_scanTraced (le_refl _) hstart hend (Nat.succ_pos _) (by omega)]

/-- A name without a NUL inside: some string of the caller leads the search out. -/
theorem ReadsArchiveOnly.names (hend : endPtr.toNat < 2 ^ 32)
    (hreads : ReadsArchiveOnly memory start endPtr)
    (hinit : initrdInit memory start endPtr = some files)
    (hbelow : ∀ file ∈ files, start.toNat ≤ file.name.toNat ∧ file.name.toNat ≤ endPtr.toNat) :
    ∀ file ∈ files, ∃ k, file.name.toNat + k < endPtr.toNat ∧
      memory (file.name.toNat + k) = 0#8 := by
  classical
  by_contra hnone
  -- the first name that has none, so that the search passes those before it
  cases hfound : files.find? fun file ↦ decide (¬ ∃ k, file.name.toNat + k < endPtr.toNat ∧
      memory (file.name.toNat + k) = 0#8) with
  | none =>
    rw [List.find?_eq_none] at hfound
    exact hnone fun file hfile ↦ by simpa using hfound file hfile
  | some file =>
    obtain ⟨hopen, front, rest, hsplit, hfront⟩ := List.find?_eq_some_iff_append.mp hfound
    have hmem : file ∈ files := by
      rw [hsplit]
      exact List.mem_append_right front List.mem_cons_self
    have hbytes : ∀ i < endPtr.toNat - file.name.toNat, memory (file.name.toNat + i) ≠ 0#8 := by
      intro i hi hnul
      exact absurd ⟨i, by omega, hnul⟩ (of_decide_eq_true hopen)
    obtain ⟨hlow, hhigh⟩ := hbelow file hmem
    have hcaller : ∃ name, CString (withString memory (2 ^ 40) (callerByte memory
        file.name.toNat (endPtr.toNat - file.name.toNat) (2 ^ 32))) (2 ^ 40) name ∧
          name.length = 2 ^ 32 := cstring_callerByte hbytes (by omega)
    obtain ⟨name, hname, hlength⟩ := hcaller
    generalize hlater : withString memory (2 ^ 40) (callerByte memory file.name.toNat
      (endPtr.toNat - file.name.toNat) (2 ^ 32)) = later at hname
    have hkeeps : ∀ position < 2 ^ 40, later position = memory position := by
      intro position hlt
      rw [← hlater, withString_apply_of_lt hlt]
    have hs : (0x10000000000#64 : Word).toNat = 2 ^ 40 := rfl
    have hwithin := hreads.find files hinit later 0x10000000000#64 name
      (fun position _ hlt ↦ hkeeps position (by omega)) (hs ▸ hname) (by rw [hs, hlength]; decide)
    rw [hsplit] at hwithin
    have hread := within_strcmpTraced_of_find (fun before hbefore ↦ ?_) hwithin
    · have hout : InArchive start endPtr
          (.archive (file.name.toNat + (endPtr.toNat - file.name.toNat))) := by
        refine allowed_of_within_strcmpTraced (by omega) (by omega) (by rw [hs]; omega)
          (fun i hi ↦ ?_) hread
        rw [hs, hkeeps _ (by omega), ← hlater, withString_apply_add, callerByte, if_pos hi]
        exact ⟨hbytes i hi, rfl⟩
      have hinside := hout.2
      omega
    · have hbeforeMem : before ∈ files := by
        rw [hsplit]
        exact List.mem_append_left _ hbefore
      obtain ⟨k, hinside, hnul⟩ : ∃ k, before.name.toNat + k < endPtr.toNat ∧
          memory (before.name.toNat + k) = 0#8 := by simpa using hfront before hbefore
      have hstop : later (before.name.toNat + k) = 0#8 := (hkeeps _ (by omega)).trans hnul
      obtain ⟨text, htext, hshort⟩ := exists_cstring hstop
      have hfuel : text.length < 2 ^ 64 := by omega
      obtain ⟨difference, hresult, hiff⟩ := strcmpSimple_eq htext (hs ▸ hname) (by omega)
        (by rw [hs, hlength]; decide) hfuel
      refine ⟨difference, hresult, fun hzero ↦ ?_⟩
      have hsame := congrArg List.length (hiff.mp hzero)
      omega

end Iff

/-- For every archive between two 32-bit addresses: no read leaves it exactly when its bytes meet
the condition. -/
theorem readsArchiveOnly_iff (memory : Memory) (start endPtr : Word32) :
    ReadsArchiveOnly memory (start.setWidth 64) (endPtr.setWidth 64) ↔
      ReadsBounded memory (start.setWidth 64) (endPtr.setWidth 64) := by
  obtain ⟨files, _, hinit, hinv⟩ := exists_initrdInit memory start endPtr
  have hrecorded := fun file hfile ↦ (hinv.recorded file hfile).1
  have hstart := toNat_address_lt start
  have hend := toNat_address_lt endPtr
  generalize (start.setWidth 64 : Word) = first at *
  generalize (endPtr.setWidth 64 : Word) = last at *
  have htable := mem_initrdScan hinit
  have hbounds : ∀ file ∈ files, first.toNat ≤ file.name.toNat ∧
      file.name.toNat ≤ last.toNat := fun file hfile ↦
    ⟨(hrecorded file hfile).name_within.1, by
      have hname := (hrecorded file hfile).name_within.2
      omega⟩
  have hplaceName : ∀ number place next,
      placeAt (nextHeader memory last) first number = some place →
        nextHeader memory last place = some next →
          (entryAt memory place).name.toNat = place.toNat + 110 := by
    intro number place next hplace hnext
    have hlow : place.toNat < 2 ^ 32 :=
      placeAt_rule (motive := fun place ↦ place.toNat < 2 ^ 32) hstart
        (fun before later hbefore hlater ↦ by
          have hfits := (nextHeader_bounds hbefore hlater).2
          omega) hplace
    exact (nextHeader_bounds hlow hnext).1.name
  constructor
  · intro hreads
    obtain ⟨hdump, htrailer⟩ := (within_initTraced hstart hend).mp hreads.init
    refine ⟨hdump, htrailer, fun number hnumber place next hplace hnext ↦ ?_⟩
    have hmem := (htable (entryAt memory place)).mpr
      (Or.inr ⟨number, place, next, by simpa using hnumber, hplace, hnext, rfl⟩)
    obtain ⟨k, hinside, hnul⟩ := hreads.names hend hinit hbounds _ hmem
    rw [hplaceName number place next hplace hnext] at hinside hnul
    exact ⟨k, hinside, hnul⟩
  · rintro ⟨hdump, htrailer, hnames⟩
    refine ⟨(within_initTraced hstart hend).mpr ⟨hdump, htrailer⟩, ?_⟩
    intro others hothers later s name hkeeps _ _
    rw [hinit, Option.some.injEq] at hothers
    subst hothers
    refine within_findTraced fun file hfile ↦ ⟨(hbounds file hfile).1, ?_⟩
    rcases (htable file).mp hfile with hnil | ⟨number, place, next, hnumber, hplace, hnext, rfl⟩
    · exact absurd hnil List.not_mem_nil
    · have hlow := (hbounds _ hfile).1
      obtain ⟨k, hinside, hnul⟩ := hnames number (by simpa using hnumber) place next hplace hnext
      rw [← hplaceName number place next hplace hnext] at hinside hnul
      exact ⟨k, hinside, (hkeeps _ (by omega) hinside).trans hnul⟩

/-- Without a module `kernel_main` passes two null pointers: the dump reads the byte at 0, which is
in no archive. -/
theorem emptyArchive_read_outside : ¬ ReadsArchiveOnly (fun _ ↦ 0#8) 0#64 0#64 := by
  intro hreads
  have hread : InArchive 0#64 0#64 (.archive 0) :=
    hreads.init (.archive 0) (List.mem_append_left _ (List.mem_map.mpr ⟨0, by decide, rfl⟩))
  exact absurd hread.2 (Nat.lt_irrefl 0)

end Colix.Initrd
