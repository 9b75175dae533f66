import Colix.Foundation.CountedLoop
import Colix.Initrd.RecordedEntries

/-!
# Reading a file

`initrd_read` of `kernel/initrd.c`, and the loop of a caller that reads a file in chunks until a
read returns 0. The clamp compares `off + len` with the size, and the sum wraps: from a length of
2^64 - `off` on it is not clamped. `initrdRead_exact_iff` says which reads return exactly what the
file has, and which sequences of chunks give the file.
-/

set_option autoImplicit false
set_option relaxedAutoImplicit false

namespace Colix.Initrd

open Foundation

/-! ### The source -/

/-- `dst[i] = src[i]` for `i < n`. -/
def copyLoop (dst src : Word) (n : ℕ) (memory : Memory) : Memory :=
  (List.range n).foldl (fun memory i ↦
    Function.update memory (dst + BitVec.ofNat 64 i).toNat (byteAt memory src i)) memory

/-- `initrd_read(f, off, buf, len)`: what it returns, and memory after it. -/
def initrdRead (memory : Memory) (f : Option InitrdFile) (off buf len : Word) : Word × Memory :=
  match f with
  | none => (0#64, memory)
  | some f =>
    let size : Word := f.size.setWidth 64
    if size ≤ off then (0#64, memory)
    else
      let len := if size < off + len then size - off else len
      (len, copyLoop buf (f.data + off) len.toNat memory)

/-- A caller that reads chunks of given lengths one after another until a read returns 0, and the
bytes it gets. `none` is a loop that has not ended. -/
def readChunks (f : InitrdFile) (buf : Word) (lens : ℕ → Word) :
    ℕ → ℕ → Word → Memory → Option (List Byte)
  | 0, _, _, _ => none
  | fuel + 1, chunk, off, memory =>
    match initrdRead memory (some f) off buf (lens chunk) with
    | (n, memory) =>
      if n = 0#64 then some []
      else (readChunks f buf lens fuel (chunk + 1) (off + n) memory).map
        ((List.range n.toNat).map (byteAt memory buf) ++ ·)

/-! ### The copy -/

section Copy

variable {memory : Memory} {dst src : Word} {n : ℕ}

/-- The distance from the source to the destination, around the address space. -/
def ahead (dst src : Word) : ℕ :=
  (dst - src).toNat

theorem toNat_ofNat_of_lt {i : ℕ} (hi : i < 2 ^ 64) : (BitVec.ofNat 64 i).toNat = i := by
  rw [BitVec.toNat_ofNat, Nat.mod_eq_of_lt hi]

/-- Two places of one loop are different. -/
theorem offset_injective {p : Word} {i j : ℕ} (hi : i < 2 ^ 64) (hj : j < 2 ^ 64)
    (hsame : (p + BitVec.ofNat 64 i).toNat = (p + BitVec.ofNat 64 j).toNat) : i = j := by
  have hoffset := congrArg BitVec.toNat (BitVec.add_right_inj p |>.mp (BitVec.eq_of_toNat_eq hsame))
  rwa [toNat_ofNat_of_lt hi, toNat_ofNat_of_lt hj] at hoffset

/-- A byte is read after it was written when the destination is ahead by less than the length. -/
theorem ahead_of_eq {i j : ℕ} (hj : j ≤ i) (hi : i < 2 ^ 64)
    (hsame : (src + BitVec.ofNat 64 i).toNat = (dst + BitVec.ofNat 64 j).toNat) :
    ahead dst src = i - j := by
  have hwords : src + BitVec.ofNat 64 i = dst + BitVec.ofNat 64 j := BitVec.eq_of_toNat_eq hsame
  have hnumber := congrArg BitVec.toNat hwords
  rw [BitVec.toNat_add, BitVec.toNat_add, toNat_ofNat_of_lt hi, toNat_ofNat_of_lt (by omega)]
    at hnumber
  have hdst := dst.isLt
  have hsrc := src.isLt
  rw [ahead, BitVec.toNat_sub]
  omega

/-- A copy to a place that is not ahead inside the source moves the bytes, and changes no others. -/
theorem copyLoop_apply (memory : Memory) (hn : n ≤ 2 ^ 64)
    (hapart : ahead dst src = 0 ∨ n ≤ ahead dst src) :
    (∀ i < n, copyLoop dst src n memory (dst + BitVec.ofNat 64 i).toNat = byteAt memory src i) ∧
      ∀ position, (∀ i < n, position ≠ (dst + BitVec.ofNat 64 i).toNat) →
        copyLoop dst src n memory position = memory position := by
  refine foldl_range_rule (motive := fun k (state : Memory) ↦
    (∀ i < k, state (dst + BitVec.ofNat 64 i).toNat = byteAt memory src i) ∧
      ∀ position, (∀ i < k, position ≠ (dst + BitVec.ofNat 64 i).toNat) →
        state position = memory position) ⟨fun i hi ↦ absurd hi (Nat.not_lt_zero i),
          fun _ _ ↦ rfl⟩ ?_
  rintro k hk state ⟨hcopied, hrest⟩
  have hread : byteAt state src k = byteAt memory src k := by
    refine hrest _ fun i hi hsame ↦ ?_
    have hahead := ahead_of_eq hi.le (by omega) hsame
    omega
  refine ⟨fun i hi ↦ ?_, fun position hposition ↦ ?_⟩
  · by_cases hlast : i = k
    · subst hlast
      rw [Function.update_self, hread]
    · rw [Function.update_of_ne fun hsame ↦ hlast (offset_injective (by omega) (by omega) hsame)]
      exact hcopied i (by omega)
  · rw [Function.update_of_ne (hposition k (Nat.lt_succ_self k))]
    exact hrest position fun i hi ↦ hposition i (by omega)

/-- A copy to a place ahead inside the source copies its own first byte again. -/
theorem copyLoop_overlap (hn : n ≤ 2 ^ 64) (hpositive : 0 < ahead dst src)
    (hinside : ahead dst src < n) :
    copyLoop dst src n memory (dst + BitVec.ofNat 64 (ahead dst src)).toNat =
      byteAt memory src 0 := by
  have hfirst :
      (dst + BitVec.ofNat 64 0).toNat = (src + BitVec.ofNat 64 (ahead dst src)).toNat := by
    rw [ahead, BitVec.ofNat_toNat, BitVec.setWidth_eq, BitVec.add_comm src, BitVec.sub_add_cancel,
      BitVec.add_zero]
  generalize ahead dst src = d at hpositive hinside hfirst ⊢
  have hloop : (n = 0 → copyLoop dst src n memory = memory) ∧
      (0 < n → copyLoop dst src n memory (dst + BitVec.ofNat 64 0).toNat = byteAt memory src 0) ∧
        (d < n →
          copyLoop dst src n memory (dst + BitVec.ofNat 64 d).toNat = byteAt memory src 0) := by
    refine foldl_range_rule (motive := fun k (state : Memory) ↦ (k = 0 → state = memory) ∧
      (0 < k → state (dst + BitVec.ofNat 64 0).toNat = byteAt memory src 0) ∧
        (d < k → state (dst + BitVec.ofNat 64 d).toNat = byteAt memory src 0))
      ⟨fun _ ↦ rfl, fun h ↦ absurd h (Nat.lt_irrefl 0), fun h ↦ absurd h (Nat.not_lt_zero d)⟩ ?_
    rintro k hk state ⟨hstart, hzero, hlast⟩
    refine ⟨fun h ↦ absurd h (Nat.succ_ne_zero k), fun _ ↦ ?_, fun hd ↦ ?_⟩
    · by_cases hk0 : k = 0
      · subst hk0
        rw [Function.update_self, hstart rfl]
      · rw [Function.update_of_ne fun hsame ↦
          hk0 (offset_injective (by omega) (by omega) hsame).symm]
        exact hzero (by omega)
    · by_cases hkd : k = d
      · subst hkd
        rw [Function.update_self, byteAt, ← hfirst]
        exact hzero hpositive
      · rw [Function.update_of_ne fun hsame ↦
          hkd (offset_injective (by omega) (by omega) hsame).symm]
        exact hlast (by omega)
  exact hloop.2.2 hinside

end Copy

/-! ### One read -/

/-- The number of bytes that the file has from `off` on, at most `len`. -/
def readCount (f : InitrdFile) (off len : Word) : ℕ :=
  min len.toNat (f.size.toNat - off.toNat)

/-- A read returns the number of bytes that the file has, copies them, and touches nothing else. -/
structure ReadsFile (memory : Memory) (f : InitrdFile) (off buf len : Word) : Prop where
  count : (initrdRead memory (some f) off buf len).1.toNat = readCount f off len
  bytes : ∀ i < readCount f off len,
    (initrdRead memory (some f) off buf len).2 (buf + BitVec.ofNat 64 i).toNat =
      byteAt memory (f.data + off) i
  rest : ∀ position, (∀ i < readCount f off len, position ≠ (buf + BitVec.ofNat 64 i).toNat) →
    (initrdRead memory (some f) off buf len).2 position = memory position

section Read

variable {memory : Memory} {f : InitrdFile} {off buf len : Word}

/-- At the end of the file there is nothing to read. -/
theorem initrdRead_of_le (hend : f.size.toNat ≤ off.toNat) :
    initrdRead memory (some f) off buf len = (0#64, memory) := by
  have hle : (f.size.setWidth 64 : Word) ≤ off := by
    rw [BitVec.le_def, toNat_setWidth_64]
    exact hend
  exact if_pos hle

/-- Before it, without a wrap, the length is clamped. -/
theorem initrdRead_of_lt (hbefore : off.toNat < f.size.toNat)
    (hfits : off.toNat + len.toNat < 2 ^ 64) :
    ∃ n : Word, n.toNat = readCount f off len ∧ initrdRead memory (some f) off buf len =
      (n, copyLoop buf (f.data + off) n.toNat memory) := by
  have hnot : ¬ (f.size.setWidth 64 : Word) ≤ off := by
    rw [BitVec.le_def, toNat_setWidth_64]
    omega
  have hsum : (off + len).toNat = off.toNat + len.toNat := toNat_add_lt hfits
  refine ⟨if (f.size.setWidth 64 : Word) < off + len then f.size.setWidth 64 - off else len, ?_,
    if_neg hnot⟩
  rw [readCount]
  by_cases hclamp : (f.size.setWidth 64 : Word) < off + len
  · rw [if_pos hclamp, BitVec.toNat_sub_of_le (BitVec.le_of_lt (BitVec.not_le.mp hnot)),
      toNat_setWidth_64]
    rw [BitVec.lt_def, toNat_setWidth_64, hsum] at hclamp
    omega
  · rw [if_neg hclamp]
    rw [BitVec.lt_def, toNat_setWidth_64, hsum] at hclamp
    omega

/-- Before it, with a wrap, the length is not clamped. -/
theorem initrdRead_of_wrap (hbefore : off.toNat < f.size.toNat)
    (hwrap : 2 ^ 64 ≤ off.toNat + len.toNat) :
    initrdRead memory (some f) off buf len =
      (len, copyLoop buf (f.data + off) len.toNat memory) := by
  have hnot : ¬ (f.size.setWidth 64 : Word) ≤ off := by
    rw [BitVec.le_def, toNat_setWidth_64]
    omega
  have hlen := len.isLt
  have hclamp : ¬ (f.size.setWidth 64 : Word) < off + len := by
    rw [BitVec.lt_def, toNat_setWidth_64, BitVec.toNat_add]
    omega
  refine (if_neg hnot).trans ?_
  simp only [if_neg hclamp]

/-- At the end of the file a read is exact. -/
theorem readsFile_of_le (hend : f.size.toNat ≤ off.toNat) : ReadsFile memory f off buf len := by
  have hnone : readCount f off len = 0 := by
    rw [readCount]
    omega
  refine ⟨?_, fun i hi ↦ absurd hi (by omega), fun position _ ↦ ?_⟩
  · rw [initrdRead_of_le hend, hnone]
    rfl
  · rw [initrdRead_of_le hend]

/-- Before it a read is exact when the buffer does not start among the bytes read. -/
theorem readsFile_of_lt (hbefore : off.toNat < f.size.toNat)
    (hfits : off.toNat + len.toNat < 2 ^ 64)
    (hapart : ahead buf (f.data + off) = 0 ∨ readCount f off len ≤ ahead buf (f.data + off)) :
    ReadsFile memory f off buf len := by
  obtain ⟨n, hcount, hresult⟩ : ∃ n : Word, n.toNat = readCount f off len ∧
      initrdRead memory (some f) off buf len =
        (n, copyLoop buf (f.data + off) n.toNat memory) := initrdRead_of_lt hbefore hfits
  have hbound : readCount f off len ≤ 2 ^ 64 := hcount ▸ n.isLt.le
  obtain ⟨hbytes, hrest⟩ := copyLoop_apply memory hbound hapart
  refine ⟨?_, ?_, ?_⟩
  · rw [hresult, hcount]
  · rw [hresult, hcount]
    exact hbytes
  · rw [hresult, hcount]
    exact hrest

/-- With the buffer among the bytes read, the byte copied to its start is copied again where it
stands in the source, so there are bytes for which the read is not exact. -/
theorem exists_not_readsFile (hbefore : off.toNat < f.size.toNat)
    (hfits : off.toNat + len.toNat < 2 ^ 64) (hne : ahead buf (f.data + off) ≠ 0)
    (hlt : ahead buf (f.data + off) < readCount f off len) :
    ∃ memory, ¬ ReadsFile memory f off buf len := by
  let marked : Memory := fun position ↦ if position = (f.data + off).toNat then 1#8 else 0#8
  refine ⟨marked, fun hreads ↦ ?_⟩
  have hread := hreads.bytes _ hlt
  obtain ⟨n, hcount, hresult⟩ : ∃ n : Word, n.toNat = readCount f off len ∧
      initrdRead marked (some f) off buf len =
        (n, copyLoop buf (f.data + off) n.toNat marked) := initrdRead_of_lt hbefore hfits
  have hbound : readCount f off len ≤ 2 ^ 64 := hcount ▸ n.isLt.le
  rw [hresult, hcount] at hread
  dsimp only at hread
  rw [copyLoop_overlap hbound (Nat.pos_of_ne_zero hne) hlt, byteAt, byteAt, BitVec.add_zero]
    at hread
  have hother : (f.data + off + BitVec.ofNat 64 (ahead buf (f.data + off))).toNat ≠
      (f.data + off).toNat := by
    intro hsame
    exact hne (offset_injective (BitVec.isLt _) (by decide)
      (hsame.trans (congrArg BitVec.toNat (BitVec.add_zero (f.data + off)).symm)))
  rw [show marked (f.data + off).toNat = 1#8 from if_pos rfl,
    show marked _ = 0#8 from if_neg hother] at hread
  exact absurd hread (by decide)

/-- A read is exact for every content exactly when it is at the end, or `off + len` does not wrap
and the buffer does not start inside the bytes read, behind the first. -/
theorem readsFile_iff (f : InitrdFile) (off buf len : Word) :
    (∀ memory, ReadsFile memory f off buf len) ↔ f.size.toNat ≤ off.toNat ∨
      (off.toNat + len.toNat < 2 ^ 64 ∧ (ahead buf (f.data + off) = 0 ∨
        readCount f off len ≤ ahead buf (f.data + off))) := by
  have hsize := f.size.isLt
  by_cases hend : f.size.toNat ≤ off.toNat
  · exact iff_of_true (fun _ ↦ readsFile_of_le hend) (Or.inl hend)
  have hbefore := not_le.mp hend
  rw [or_iff_right hend]
  constructor
  · intro hall
    have hfits : off.toNat + len.toNat < 2 ^ 64 := by
      by_contra hwrap
      have hcount := (hall fun _ ↦ 0#8).count
      rw [initrdRead_of_wrap hbefore (not_lt.mp hwrap), readCount] at hcount
      dsimp only at hcount
      omega
    refine ⟨hfits, ?_⟩
    by_contra hinside
    rw [not_or, not_le] at hinside
    obtain ⟨memory, hnot⟩ := exists_not_readsFile hbefore hfits hinside.1 hinside.2
    exact hnot (hall memory)
  · rintro ⟨hfits, hapart⟩ memory
    exact readsFile_of_lt hbefore hfits hapart

end Read

/-! ### Reading in chunks -/

/-- The bytes of a file. -/
def fileBytes (memory : Memory) (f : InitrdFile) : List Byte :=
  (List.range f.size.toNat).map (byteAt memory f.data)

/-- The buffer is no part of the file. -/
def BufferApart (f : InitrdFile) (buf : Word) : Prop :=
  ∀ i < f.size.toNat, ∀ j < f.size.toNat,
    (f.data + BitVec.ofNat 64 j).toNat ≠ (buf + BitVec.ofNat 64 i).toNat

/-- What the chunks before one ask for. -/
def askedBefore (lens : ℕ → Word) : ℕ → ℕ
  | 0 => 0
  | chunk + 1 => askedBefore lens chunk + (lens chunk).toNat

/-- Reading in chunks of these lengths, into a buffer apart from the file, until a read returns 0:
it ends, with the first bytes of the file, and with all of them when no length is 0. -/
def ChunksReadFile (f : InitrdFile) (lens : ℕ → Word) : Prop :=
  ∀ memory buf, BufferApart f buf → ∃ fuel bytes,
    readChunks f buf lens fuel 0 0#64 memory = some bytes ∧ bytes <+: fileBytes memory f ∧
      ((∀ chunk, lens chunk ≠ 0#64) → bytes = fileBytes memory f)

/-- No chunk that is asked for before the end of the file wraps. -/
def ChunksFit (f : InitrdFile) (lens : ℕ → Word) : Prop :=
  ∀ chunk, (∀ earlier < chunk, lens earlier ≠ 0#64) → askedBefore lens chunk < f.size.toNat →
    askedBefore lens chunk + (lens chunk).toNat < 2 ^ 64

section Chunks

variable {memory now : Memory} {f : InitrdFile} {buf off : Word} {lens : ℕ → Word} {chunk : ℕ}

theorem byteAt_add (memory : Memory) (p off : Word) (i : ℕ) :
    byteAt memory (p + off) i = byteAt memory p (off.toNat + i) := by
  rw [byteAt, byteAt, BitVec.ofNat_add, BitVec.ofNat_toNat, BitVec.setWidth_eq, BitVec.add_assoc]

/-- A buffer apart from the file is not ahead inside what is read of it. -/
theorem BufferApart.ahead (hapart : BufferApart f buf) (len : Word) :
    ahead buf (f.data + off) = 0 ∨ readCount f off len ≤ ahead buf (f.data + off) := by
  by_contra hinside
  rw [not_or, not_le, readCount] at hinside
  obtain ⟨hne, hlt⟩ := hinside
  refine hapart 0 (by omega) (off.toNat + Initrd.ahead buf (f.data + off)) (by omega) ?_
  rw [BitVec.ofNat_add, BitVec.ofNat_toNat, BitVec.setWidth_eq, ← BitVec.add_assoc,
    Initrd.ahead, BitVec.ofNat_toNat, BitVec.setWidth_eq, BitVec.add_comm _ (buf - _),
    BitVec.sub_add_cancel, BitVec.add_zero]

/-- A read into a buffer apart from the file gets the next bytes of it, and leaves it as it was. -/
theorem read_of_apart {len : Word} (hapart : BufferApart f buf)
    (hfits : off.toNat < f.size.toNat → off.toNat + len.toNat < 2 ^ 64)
    (hsame : ∀ i < f.size.toNat, byteAt now f.data i = byteAt memory f.data i) :
    ∃ n next, initrdRead now (some f) off buf len = (n, next) ∧
      n.toNat = readCount f off len ∧
        (∀ i < n.toNat, byteAt next buf i = byteAt memory f.data (off.toNat + i)) ∧
          ∀ i < f.size.toNat, byteAt next f.data i = byteAt memory f.data i := by
  have hexact : ∀ memory, ReadsFile memory f off buf len := by
    rw [readsFile_iff]
    by_cases hbefore : off.toNat < f.size.toNat
    · exact Or.inr ⟨hfits hbefore, hapart.ahead len⟩
    · exact Or.inl (not_lt.mp hbefore)
  obtain ⟨hcount, hbytes, hrest⟩ := hexact now
  refine ⟨(initrdRead now (some f) off buf len).1, (initrdRead now (some f) off buf len).2, rfl,
    hcount, fun i hi ↦ ?_, fun i hi ↦ ?_⟩
  · rw [hcount] at hi
    have hinside : off.toNat + i < f.size.toNat := by
      rw [readCount] at hi
      omega
    exact (hbytes i hi).trans ((byteAt_add now f.data off i).trans (hsame _ hinside))
  · refine (hrest _ fun j hj ↦ hapart j ?_ i hi).trans (hsame i hi)
    rw [readCount] at hj
    omega

/-- A chunk of the file is followed by the bytes behind it. -/
theorem drop_fileBytes {bytes : ℕ → Byte} {before n : ℕ} (hinside : before + n ≤ f.size.toNat)
    (hbytes : ∀ i < n, bytes i = byteAt memory f.data (before + i)) :
    (fileBytes memory f).drop before =
      (List.range n).map bytes ++ (fileBytes memory f).drop (before + n) := by
  refine List.ext_getElem (by simp [fileBytes]; omega) fun i hi _ ↦ ?_
  have hwhole : ((fileBytes memory f).drop before)[i] = byteAt memory f.data (before + i) := by
    simp [fileBytes]
  rw [hwhole]
  by_cases hchunk : i < n
  · rw [List.getElem_append_left (by simpa using hchunk), List.getElem_map, List.getElem_range,
      hbytes i hchunk]
  · rw [List.getElem_append_right (by simpa using hchunk), List.getElem_drop]
    simp only [fileBytes, List.getElem_map, List.getElem_range, List.length_map,
      List.length_range]
    congr 1
    omega

/-- From an offset on, the chunks give the rest of the file. -/
theorem readChunks_of_fits (hapart : BufferApart f buf) (hfit : ChunksFit f lens) (remaining : ℕ) :
    ∀ (chunk : ℕ) (off : Word) (now : Memory), f.size.toNat - off.toNat ≤ remaining →
      off.toNat = min f.size.toNat (askedBefore lens chunk) →
      (∀ earlier < chunk, lens earlier ≠ 0#64) →
      (∀ i < f.size.toNat, byteAt now f.data i = byteAt memory f.data i) →
        ∃ fuel bytes, readChunks f buf lens fuel chunk off now = some bytes ∧
          bytes <+: (fileBytes memory f).drop off.toNat ∧
            ((∀ chunk, lens chunk ≠ 0#64) → bytes = (fileBytes memory f).drop off.toNat) := by
  induction remaining with
  | zero =>
    intro chunk off now hremaining _ _ _
    have hend : f.size.toNat ≤ off.toNat := by omega
    have hall : (fileBytes memory f).drop off.toNat = [] :=
      List.drop_eq_nil_of_le (by simpa [fileBytes] using hend)
    refine ⟨1, [], ?_, List.nil_prefix, fun _ ↦ hall.symm⟩
    rw [readChunks, initrdRead_of_le hend]
    rfl
  | succ remaining ih =>
    intro chunk off now hremaining hoff hnonzero hsame
    have hsize := f.size.isLt
    have hfits : off.toNat < f.size.toNat → off.toNat + (lens chunk).toNat < 2 ^ 64 := by
      intro hbefore
      have hasked : off.toNat = askedBefore lens chunk := by omega
      rw [hasked]
      exact hfit chunk hnonzero (by omega)
    obtain ⟨n, next, hread, hcount, hbytes, hkept⟩ := read_of_apart hapart hfits hsame
    rw [readCount] at hcount
    by_cases hn : n = 0#64
    · have hzero : n.toNat = 0 := by rw [hn]; rfl
      refine ⟨1, [], ?_, List.nil_prefix, fun hall ↦ ?_⟩
      · rw [readChunks, hread]
        exact if_pos hn
      · have hlen : (lens chunk).toNat ≠ 0 := fun h ↦ hall chunk (BitVec.eq_of_toNat_eq h)
        exact (List.drop_eq_nil_of_le (by simp [fileBytes]; omega)).symm
    · have hpositive : 0 < n.toNat := Nat.pos_of_ne_zero fun h ↦ hn (BitVec.eq_of_toNat_eq h)
      have hnext : (off + n).toNat = off.toNat + n.toNat := toNat_add_lt (by omega)
      obtain ⟨fuel, rest, hrest, hbegins, hwhole⟩ := ih (chunk + 1) (off + n) next (by omega)
        (by rw [hnext, askedBefore]; omega) (fun earlier hearlier ↦ by
          rcases Nat.lt_succ_iff_lt_or_eq.mp hearlier with hlt | rfl
          · exact hnonzero earlier hlt
          · intro hzero
            rw [hzero] at hcount
            change n.toNat = min 0 _ at hcount
            omega) hkept
      have hsplit : (fileBytes memory f).drop off.toNat =
          (List.range n.toNat).map (byteAt next buf) ++
            (fileBytes memory f).drop (off + n).toNat := by
        rw [hnext]
        exact drop_fileBytes (by omega) hbytes
      refine ⟨fuel + 1, (List.range n.toNat).map (byteAt next buf) ++ rest, ?_, ?_, fun hall ↦ ?_⟩
      · rw [readChunks, hread]
        simp only [if_neg hn, hrest, Option.map_some]
      · rw [hsplit]
        exact (List.prefix_append_right_inj _).mpr hbegins
      · rw [hsplit, hwhole hall]

/-- Before the end of the file a caller gets what it asks for, chunk after chunk. -/
theorem readChunks_reaches {fuel : ℕ} {bytes : List Byte}
    (hread : readChunks f buf lens fuel 0 0#64 memory = some bytes)
    (hnonzero : ∀ earlier < chunk, lens earlier ≠ 0#64)
    (hbefore : askedBefore lens chunk < f.size.toNat) :
    ∃ fuel now rest, readChunks f buf lens fuel chunk
        (BitVec.ofNat 64 (askedBefore lens chunk)) now = some rest ∧
      bytes.length = askedBefore lens chunk + rest.length := by
  induction chunk with
  | zero => exact ⟨fuel, memory, bytes, hread, (Nat.zero_add _).symm⟩
  | succ chunk ih =>
    have hsize := f.size.isLt
    rw [askedBefore] at hbefore
    obtain ⟨fuel, now, rest, hrest, hlength⟩ := ih
      (fun earlier hearlier ↦ hnonzero earlier (by omega)) (by omega)
    cases fuel with
    | zero => exact absurd hrest (by simp [readChunks])
    | succ fuel =>
      have hoff : (BitVec.ofNat 64 (askedBefore lens chunk)).toNat = askedBefore lens chunk :=
        toNat_ofNat_of_lt (by omega)
      obtain ⟨n, hcount, hresult⟩ : ∃ n : Word, n.toNat = readCount f _ (lens chunk) ∧
          initrdRead now (some f) _ buf (lens chunk) = (n, copyLoop buf _ n.toNat now) :=
        initrdRead_of_lt (by rw [hoff]; omega) (by rw [hoff]; omega)
      have hn : n = lens chunk := by
        refine BitVec.eq_of_toNat_eq (hcount.trans ?_)
        rw [readCount, hoff]
        omega
      subst hn
      rw [readChunks, hresult] at hrest
      simp only [if_neg (hnonzero chunk (Nat.lt_succ_self chunk)), Option.map_eq_some_iff] at hrest
      obtain ⟨later, hlater, rfl⟩ := hrest
      rw [askedBefore, BitVec.ofNat_add, BitVec.ofNat_toNat, BitVec.setWidth_eq]
      refine ⟨fuel, _, later, hlater, ?_⟩
      rw [hlength, List.length_append, List.length_map, List.length_range, Nat.add_assoc]

/-- Some buffer is apart from the file. -/
theorem exists_bufferApart (f : InitrdFile) : ∃ buf, BufferApart f buf := by
  have hsize := f.size.isLt
  refine ⟨f.data + BitVec.ofNat 64 (2 ^ 33), fun i hi j hj hsame ↦ ?_⟩
  rw [BitVec.add_assoc, ← BitVec.ofNat_add] at hsame
  have hequal := offset_injective (by omega) (by omega) hsame
  omega

/-- The chunks give the file exactly when none that is asked for before its end wraps. -/
theorem chunksReadFile_iff (f : InitrdFile) (lens : ℕ → Word) :
    ChunksReadFile f lens ↔ ChunksFit f lens := by
  constructor
  · intro hchunks chunk hnonzero hbefore
    by_contra hwrap
    rw [not_lt] at hwrap
    have hsize := f.size.isLt
    obtain ⟨buf, hapart⟩ := exists_bufferApart f
    obtain ⟨fuel, bytes, hread, hbegins, -⟩ := hchunks (fun _ ↦ 0#8) buf hapart
    obtain ⟨fuel, now, rest, hrest, hlength⟩ := readChunks_reaches hread hnonzero hbefore
    -- the chunk that wraps returns more than the file has
    have hshort := hbegins.length_le
    rw [fileBytes, List.length_map, List.length_range] at hshort
    have hoff : (BitVec.ofNat 64 (askedBefore lens chunk)).toNat = askedBefore lens chunk :=
      toNat_ofNat_of_lt (by omega)
    cases fuel with
    | zero => exact absurd hrest (by simp [readChunks])
    | succ fuel =>
      have hlen : lens chunk ≠ 0#64 := by
        intro hzero
        rw [hzero] at hwrap
        change 2 ^ 64 ≤ askedBefore lens chunk + 0 at hwrap
        omega
      rw [readChunks, initrdRead_of_wrap (by rw [hoff]; exact hbefore) (by rw [hoff]; exact hwrap)]
        at hrest
      simp only [if_neg hlen, Option.map_eq_some_iff] at hrest
      obtain ⟨later, -, rfl⟩ := hrest
      rw [List.length_append, List.length_map, List.length_range] at hlength
      omega
  · intro hfit memory buf hapart
    have hzero : (0#64 : Word).toNat = min f.size.toNat (askedBefore lens 0) := by
      rw [askedBefore, Nat.min_zero]
      rfl
    exact readChunks_of_fits hapart hfit f.size.toNat 0 0#64 memory (Nat.sub_le _ _) hzero
      (fun earlier hearlier ↦ absurd hearlier (Nat.not_lt_zero earlier)) fun _ _ ↦ rfl

end Chunks

/-- Reading a file. A read is exact for every content of memory exactly when it starts at or behind
the end of the file, or `off + len` does not wrap and the buffer does not start behind the first of
the bytes read and among them. A sequence of chunks gives the file exactly when none that is asked
for before its end wraps. -/
theorem initrdRead_exact_iff (f : InitrdFile) :
    (∀ off buf len, (∀ memory, ReadsFile memory f off buf len) ↔ f.size.toNat ≤ off.toNat ∨
      (off.toNat + len.toNat < 2 ^ 64 ∧ (ahead buf (f.data + off) = 0 ∨
        readCount f off len ≤ ahead buf (f.data + off)))) ∧
      ∀ lens, ChunksReadFile f lens ↔ ChunksFit f lens :=
  ⟨readsFile_iff f, chunksReadFile_iff f⟩

/-- An archive at 4096, of the file `a` that holds `hi`. -/
def helloMemory : Memory := fun position ↦ (newcArchive [helloFile]).getD (position - 4096) 0#8

/-- What `initrd_init` records of it. -/
def helloEntry : InitrdFile := ⟨4206#64, 2#32, 4208#64⟩

/-- A read of the file from its second byte on with the length 2^64 - 1 returns that length, where
the file has one byte left. -/
theorem initrdRead_not_exact :
    initrdInit helloMemory 4096#64 4336#64 = some [helloEntry] ∧
      (initrdRead helloMemory (some helloEntry) 1#64 0x200000#64 0xFFFFFFFFFFFFFFFF#64).1 =
        0xFFFFFFFFFFFFFFFF#64 ∧
        ¬ ReadsFile helloMemory helloEntry 1#64 0x200000#64 0xFFFFFFFFFFFFFFFF#64 := by
  have hread : initrdRead helloMemory (some helloEntry) 1#64 0x200000#64 0xFFFFFFFFFFFFFFFF#64 =
      (0xFFFFFFFFFFFFFFFF#64, _) :=
        initrdRead_of_wrap (show (1#64 : Word).toNat < helloEntry.size.toNat from by decide)
      (show 2 ^ 64 ≤ (1#64 : Word).toNat + (0xFFFFFFFFFFFFFFFF#64 : Word).toNat from by decide)
  refine ⟨by decide +kernel, by rw [hread], fun hexact ↦ ?_⟩
  have hcount := hexact.count
  rw [hread] at hcount
  exact absurd hcount (by decide)

end Colix.Initrd
