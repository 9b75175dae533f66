import Colix.Foundation.RecordWalk
import Colix.Foundation.Traced
import Colix.Initrd.RecordedEntries

/-!
# What the parser reads

`initrd_init` and `initrd_find` again, with the bytes they read: `initTraced` and `findTraced` give
the values of `initrdInit` and `initrdFind` (`value_initTraced`, `value_findTraced`). The dump reads
32 bytes whatever the size of the archive, the comparison with the trailer is not bounded by its
end, and a recorded name need not end in it.
-/

set_option autoImplicit false
set_option relaxedAutoImplicit false

namespace Colix.Initrd

open Foundation

/-! ### The source, with its reads -/

/-- A byte read: through a pointer into the archive, or of the caller's string. -/
inductive Read
  | archive (address : ℕ)
  | argument (address : ℕ)

/-- A read through a pointer into the archive. -/
def readArchive (memory : Memory) (p : Word) : Traced Read Byte :=
  Traced.access [.archive p.toNat] (memory p.toNat)

/-- A read of the caller's string. -/
def readArgument (memory : Memory) (p : Word) : Traced Read Byte :=
  Traced.access [.argument p.toNat] (memory p.toNat)

/-- The loop of `memcmp_simple` between the archive and a constant. -/
def memcmpTraced (memory : Memory) (p : Word) (q : ℕ → Byte) : ℕ → ℕ → Traced Read ℤ
  | 0, _ => pure 0
  | count + 1, i => do
    let byte ← readArchive memory (p + BitVec.ofNat 64 i)
    if byte ≠ q i then pure (byte.toNat - (q i).toNat) else memcmpTraced memory p q count (i + 1)

/-- `strcmp_simple` between a recorded name and the caller's string. -/
def strcmpTraced (memory : Memory) : ℕ → Word → Word → Traced Read ℤ
  | 0, _, _ => Traced.ofOption none
  | fuel + 1, a, b => do
    let first ← readArchive memory a
    let second ← readArgument memory b
    if first ≠ 0#8 ∧ second ≠ 0#8 ∧ first = second then
      strcmpTraced memory fuel (a + 1#64) (b + 1#64)
    else pure (first.toNat - second.toNat)

/-- The loop of `hex8_to_u32`. -/
def hexTraced (memory : Memory) : ℕ → Word → Word32 → Traced Read Word32
  | 0, _, v => pure v
  | count + 1, s, v => do
    let c ← readArchive memory s
    hexTraced memory count (s + 1#64) ((v <<< 4) ||| hexDigit c)

/-- `hex8_to_u32(s)`. -/
def hex8Traced (memory : Memory) (s : Word) : Traced Read Word32 :=
  hexTraced memory 8 s 0#32

/-- The comparisons of `h->c_magic` from byte `i` on: the first that fails ends them. -/
def magicTraced (memory : Memory) (h : Word) : List Byte → ℕ → Traced Read Bool
  | [], _ => pure true
  | expected :: rest, i => do
    let byte ← readArchive memory (h + BitVec.ofNat 64 i)
    if byte = expected then magicTraced memory h rest (i + 1) else pure false

/-- The test for the trailer: the name is compared when its size is 11. -/
def trailerTraced (memory : Memory) (name : Word) (namesize : Word32) : Traced Read Bool :=
  if namesize = 11#32 then do
    let difference ← memcmpTraced memory name (fun i ↦ trailerName.getD i 0#8) 10 0
    pure (decide (difference = 0))
  else pure false

/-- The loop of `initrd_init`. -/
def scanTraced (memory : Memory) (endPtr : Word) :
    ℕ → Word → List InitrdFile → Traced Read (List InitrdFile)
  | 0, _, _ => Traced.ofOption none
  | fuel + 1, p, files =>
    if p + newcHeaderSize ≤ endPtr then do
      let matched ← magicTraced memory p newcMagic 0
      if matched then do
        let namesize ← hex8Traced memory (p + namesizeOffset)
        let filesize ← hex8Traced memory (p + filesizeOffset)
        let name := p + newcHeaderSize
        let trailer ← trailerTraced memory name namesize
        if trailer then pure files
        else
          let fileData := align4Ptr (name + namesize.setWidth 64)
          let next := align4Ptr (fileData + filesize.setWidth 64)
          if endPtr < next then pure files
          else scanTraced memory endPtr fuel next (addFile files ⟨name, filesize, fileData⟩)
      else pure files
    else pure files

/-- `initrd_init(start, end)`: the dump of 32 bytes, then the loop. -/
def initTraced (memory : Memory) (start endPtr : Word) : Traced Read (List InitrdFile) := do
  Traced.access ((List.range 32).map fun i ↦ Read.archive (start + BitVec.ofNat 64 i).toNat) ()
  scanTraced memory endPtr (endPtr.toNat + 1) start []

/-- `initrd_find(name)`. -/
def findTraced (memory : Memory) (name : Word) :
    List InitrdFile → ℕ → Traced Read (Option ℕ)
  | [], _ => pure none
  | file :: rest, i => do
    let difference ← strcmpTraced memory (2 ^ 64) file.name name
    if difference = 0 then pure (some i) else findTraced memory name rest (i + 1)

/-! ### The values are those of the source -/

section Values

variable {memory : Memory}

theorem value_memcmpTraced (p : Word) (q : ℕ → Byte) (count i : ℕ) :
    (memcmpTraced memory p q count i).value = some (memcmpFrom (byteAt memory p) q count i) := by
  induction count generalizing i with
  | zero => rfl
  | succ count ih =>
    rw [memcmpTraced, Traced.value_bind, readArchive, Traced.value_access, Option.bind_some,
      memcmpFrom, byteAt]
    split
    · rfl
    · exact ih (i + 1)

theorem value_strcmpTraced (fuel : ℕ) (a b : Word) :
    (strcmpTraced memory fuel a b).value = strcmpSimple memory fuel a b := by
  induction fuel generalizing a b with
  | zero => rfl
  | succ fuel ih =>
    simp only [strcmpTraced, readArchive, readArgument, Traced.value_bind, Traced.value_access,
      Option.bind_some]
    rw [strcmpSimple]
    split
    · exact ih _ _
    · rfl

theorem value_hexTraced (count : ℕ) (s : Word) (v : Word32) :
    (hexTraced memory count s v).value = some (hexDigits memory count s v) := by
  induction count generalizing s v with
  | zero => rfl
  | succ count ih =>
    rw [hexTraced, Traced.value_bind, readArchive, Traced.value_access, Option.bind_some, hexDigits]
    exact ih _ _

theorem value_hex8Traced (s : Word) :
    (hex8Traced memory s).value = some (hex8ToU32 memory s) :=
  value_hexTraced 8 s 0#32

theorem value_magicTraced (h : Word) :
    (magicTraced memory h newcMagic 0).value = some (decide (magicMatches memory h)) := by
  have hlist : ∀ (rest : List Byte) (i : ℕ), (magicTraced memory h rest i).value =
      some (decide (∀ j (hj : j < rest.length), byteAt memory h (i + j) = rest[j])) := by
    intro rest
    induction rest with
    | nil =>
      intro i
      simp [magicTraced]
    | cons expected rest ih =>
      intro i
      rw [magicTraced, Traced.value_bind, readArchive, Traced.value_access, Option.bind_some]
      by_cases hbyte : memory (h + BitVec.ofNat 64 i).toNat = expected
      · rw [if_pos hbyte, ih]
        congr 1
        rw [decide_eq_decide]
        constructor
        · intro hrest j hj
          cases j with
          | zero => exact hbyte
          | succ j =>
            rw [List.getElem_cons_succ, ← hrest j (by simpa using hj), Nat.add_right_comm,
              Nat.add_assoc]
        · intro hall j hj
          rw [Nat.add_assoc, Nat.add_comm 1]
          exact hall (j + 1) (by simpa using hj)
      · rw [if_neg hbyte]
        refine congrArg some (Eq.symm (decide_eq_false fun hall ↦ hbyte ?_))
        exact hall 0 (Nat.zero_lt_succ _)
  rw [hlist]
  congr 1
  rw [decide_eq_decide]
  constructor
  · intro hall
    exact ⟨hall 0 (by decide), hall 1 (by decide), hall 2 (by decide), hall 3 (by decide),
      hall 4 (by decide), hall 5 (by decide)⟩
  · rintro ⟨h0, h1, h2, h3, h4, h5⟩ j hj
    match j, hj with
    | 0, _ => exact h0
    | 1, _ => exact h1
    | 2, _ => exact h2
    | 3, _ => exact h3
    | 4, _ => exact h4
    | 5, _ => exact h5

theorem value_trailerTraced (p : Word) : (trailerTraced memory (p + newcHeaderSize)
    (hex8ToU32 memory (p + namesizeOffset))).value = some (decide (IsTrailer memory p)) := by
  rw [trailerTraced]
  by_cases hsize : hex8ToU32 memory (p + namesizeOffset) = 11#32
  · simp [hsize, value_memcmpTraced, IsTrailer, memcmpSimple]
  · simp [hsize, IsTrailer]

theorem value_scanTraced (endPtr : Word) (fuel : ℕ) (p : Word) (files : List InitrdFile) :
    (scanTraced memory endPtr fuel p files).value = initrdScan memory endPtr fuel p files := by
  induction fuel generalizing p files with
  | zero => rfl
  | succ fuel ih =>
    rw [scanTraced, initrdScan]
    by_cases hroom : p + newcHeaderSize ≤ endPtr
    · rw [if_pos hroom, if_pos hroom, Traced.value_bind, value_magicTraced, Option.bind_some]
      by_cases hmagic : magicMatches memory p
      · rw [if_pos hmagic, if_pos (decide_eq_true hmagic), Traced.value_bind, value_hex8Traced,
          Option.bind_some, Traced.value_bind, value_hex8Traced, Option.bind_some,
          Traced.value_bind, value_trailerTraced, Option.bind_some]
        by_cases htrailer : IsTrailer memory p
        · rw [if_pos (decide_eq_true htrailer)]
          exact (if_pos htrailer).symm
        · rw [if_neg (by simpa using htrailer)]
          refine Eq.trans ?_ (if_neg htrailer).symm
          by_cases hpast : endPtr < (entryAt memory p).paddedEnd
          · exact (congrArg Traced.value (if_pos hpast)).trans (if_pos hpast).symm
          · refine (congrArg Traced.value (if_neg hpast)).trans (Eq.trans ?_ (if_neg hpast).symm)
            exact ih _ _
      · rw [if_neg hmagic, if_neg (by simpa using hmagic)]
        rfl
    · rw [if_neg hroom, if_neg hroom]
      rfl

theorem value_initTraced (start endPtr : Word) :
    (initTraced memory start endPtr).value = initrdInit memory start endPtr := by
  rw [initTraced, Traced.value_bind, Traced.value_access, Option.bind_some, value_scanTraced,
    initrdInit]

theorem value_findTraced (name : Word) (files : List InitrdFile) (i : ℕ) :
    (findTraced memory name files i).value = findFrom memory name files i := by
  induction files generalizing i with
  | nil => rfl
  | cons file rest ih =>
    rw [findTraced, Traced.value_bind, value_strcmpTraced, findFrom]
    cases strcmpSimple memory (2 ^ 64) file.name name with
    | none => rfl
    | some difference =>
      rw [Option.bind_some]
      simp only
      split
      · rfl
      · exact ih (i + 1)

end Values

/-! ### The reads of the scan -/

/-- A read inside the archive. The caller's string is no part of it. -/
def InArchive (start endPtr : Word) : Read → Prop
  | .archive address => start.toNat ≤ address ∧ address < endPtr.toNat
  | .argument _ => True

/-- A header whose magic the loop accepts. -/
def HasHeader (memory : Memory) (endPtr p : Word) : Prop :=
  p + newcHeaderSize ≤ endPtr ∧ magicMatches memory p

/-- The comparison with the name of the trailer ends inside the archive: as long as the bytes agree,
there is another. -/
def TrailerInside (memory : Memory) (endPtr p : Word) : Prop :=
  hex8ToU32 memory (p + namesizeOffset) = 11#32 → ∀ k < 10,
    (∀ j < k, memory (p.toNat + 110 + j) = trailerName.getD j 0#8) →
      p.toNat + 110 + k < endPtr.toNat

section Scan

variable {memory : Memory} {start endPtr p s : Word} {files : List InitrdFile}
  {allowed : Read → Prop}

/-- `memcmp_simple` reads a byte when all before it agree. -/
theorem within_memcmpTraced {q : ℕ → Byte} {count i : ℕ} :
    Traced.Within allowed (memcmpTraced memory p q count i) ↔
      ∀ k < count, (∀ j < k, byteAt memory p (i + j) = q (i + j)) →
        allowed (.archive (p + BitVec.ofNat 64 (i + k)).toNat) := by
  induction count generalizing i with
  | zero => simp [memcmpTraced]
  | succ count ih =>
    rw [memcmpTraced, Traced.within_bind, readArchive, Traced.within_access,
      List.forall_mem_singleton, Traced.value_access]
    simp only [Option.some.injEq, forall_eq']
    change _ ∧ Traced.Within allowed (if byteAt memory p i ≠ q i then _ else _) ↔ _
    constructor
    · rintro ⟨hfirst, hrest⟩ k hk hagree
      cases k with
      | zero => exact hfirst
      | succ k =>
        have hbyte : byteAt memory p i = q i := hagree 0 (Nat.zero_lt_succ k)
        rw [if_neg (not_not.mpr hbyte), ih] at hrest
        have hlater := hrest k (by omega) fun j hj ↦ by
          have hsame := hagree (j + 1) (by omega)
          rwa [Nat.add_comm j 1, ← Nat.add_assoc] at hsame
        rwa [Nat.add_assoc, Nat.add_comm 1] at hlater
    · intro hall
      refine ⟨hall 0 (Nat.zero_lt_succ count) fun j hj ↦ absurd hj (Nat.not_lt_zero j), ?_⟩
      by_cases hbyte : byteAt memory p i = q i
      · rw [if_neg (not_not.mpr hbyte), ih]
        intro k hk hagree
        rw [Nat.add_assoc, Nat.add_comm 1]
        refine hall (k + 1) (by omega) fun j hj ↦ ?_
        cases j with
        | zero => exact hbyte
        | succ j =>
          rw [Nat.add_comm j 1, ← Nat.add_assoc]
          exact hagree j (by omega)
      · rw [if_pos hbyte, Traced.within_pure]
        trivial

/-- The digits are read at their places. -/
theorem within_hexTraced {count : ℕ} {v : Word32} (hlow : start.toNat ≤ s.toNat)
    (hfits : s.toNat + count ≤ endPtr.toNat) :
    Traced.Within (InArchive start endPtr) (hexTraced memory count s v) := by
  induction count generalizing s v with
  | zero => exact (Traced.within_pure v).mpr trivial
  | succ count ih =>
    have hend := endPtr.isLt
    have hnext : (s + 1#64).toNat = s.toNat + 1 :=
      toNat_add_lt (show s.toNat + (1#64).toNat < 2 ^ 64 from by simp; omega)
    rw [hexTraced, Traced.within_bind, readArchive, Traced.within_access,
      List.forall_mem_singleton]
    exact ⟨⟨hlow, by omega⟩, fun c _ ↦ ih (by omega) (by omega)⟩

/-- The magic is read inside the header. -/
theorem within_magicTraced {expected : List Byte} {i : ℕ} (hlow : start.toNat ≤ p.toNat)
    (hfits : p.toNat + (i + expected.length) ≤ endPtr.toNat) :
    Traced.Within (InArchive start endPtr) (magicTraced memory p expected i) := by
  induction expected generalizing i with
  | nil => exact (Traced.within_pure true).mpr trivial
  | cons byte rest ih =>
    have hend := endPtr.isLt
    rw [List.length_cons] at hfits
    have hplace : (p + BitVec.ofNat 64 i).toNat = p.toNat + i := by
      have hi : (BitVec.ofNat 64 i).toNat = i := by
        rw [BitVec.toNat_ofNat, Nat.mod_eq_of_lt (by omega)]
      rw [toNat_add_lt (by omega), hi]
    rw [magicTraced, Traced.within_bind, readArchive, Traced.within_access,
      List.forall_mem_singleton, Traced.value_access, hplace]
    refine ⟨⟨by omega, by omega⟩, fun value _ ↦ ?_⟩
    split
    · exact ih (by omega)
    · exact (Traced.within_pure false).mpr trivial

/-- The test for the trailer reads inside the archive exactly when its comparison does. -/
theorem within_trailerTraced (hlow : start.toNat ≤ p.toNat) (hp : p.toNat + 120 < 2 ^ 64) :
    Traced.Within (InArchive start endPtr) (trailerTraced memory (p + newcHeaderSize)
      (hex8ToU32 memory (p + namesizeOffset))) ↔ TrailerInside memory endPtr p := by
  have hname : (p + newcHeaderSize).toNat = p.toNat + 110 :=
    toNat_add_lt (show p.toNat + (110#64).toNat < 2 ^ 64 from by simp; omega)
  have hplace : ∀ k < 10, (p + newcHeaderSize + BitVec.ofNat 64 k).toNat = p.toNat + 110 + k := by
    intro k hk
    have hindex : (BitVec.ofNat 64 k).toNat = k := by
      rw [BitVec.toNat_ofNat, Nat.mod_eq_of_lt (by omega)]
    rw [toNat_add_lt (by omega), hname, hindex]
  rw [trailerTraced, TrailerInside]
  by_cases hsize : hex8ToU32 memory (p + namesizeOffset) = 11#32
  · rw [if_pos hsize, Traced.within_bind, within_memcmpTraced]
    simp only [Traced.within_pure, implies_true, and_true, hsize, true_imp_iff, Nat.zero_add]
    refine forall₂_congr fun k hk ↦ ?_
    have hagree : (∀ j < k, byteAt memory (p + newcHeaderSize) j = trailerName.getD j 0#8) ↔
        ∀ j < k, memory (p.toNat + 110 + j) = trailerName.getD j 0#8 := by
      refine forall₂_congr fun j hj ↦ ?_
      rw [byteAt, hplace j (by omega)]
    rw [hagree, hplace k hk]
    exact imp_congr_right fun _ ↦ and_iff_right (by omega)
  · rw [if_neg hsize, Traced.within_pure]
    exact iff_of_true trivial fun hsize' ↦ absurd hsize' hsize

end Scan

end Colix.Initrd
