import Colix.Foundation.ByteString
import Colix.Types

/-!
# The initrd parser

`initrd_init` and `initrd_find` of `kernel/initrd.c`: a scan of a cpio newc archive in memory into
a table of files, and the search of the table by name. Pointers are machine words. The scan and the
comparison of strings take fuel: `none` is a loop that did not end within it.
-/

set_option autoImplicit false
set_option relaxedAutoImplicit false

namespace Colix.Initrd

open Foundation

/-! ### Helpers of the source -/

/-- The byte `p[i]`. -/
def byteAt (memory : Memory) (p : Word) (i : ℕ) : Byte :=
  memory (p + BitVec.ofNat 64 i).toNat

/-- The loop of `memcmp_simple` from index `i`, with `count` bytes left. -/
def memcmpFrom (p q : ℕ → Byte) : ℕ → ℕ → ℤ
  | 0, _ => 0
  | count + 1, i =>
    if p i ≠ q i then (p i).toNat - (q i).toNat else memcmpFrom p q count (i + 1)

/-- `memcmp_simple(a, b, n)`. -/
def memcmpSimple (a b : ℕ → Byte) (n : ℕ) : ℤ :=
  memcmpFrom a b n 0

/-- `strcmp_simple(a, b)`. -/
def strcmpSimple (memory : Memory) : ℕ → Word → Word → Option ℤ
  | 0, _, _ => none
  | fuel + 1, a, b =>
    if memory a.toNat ≠ 0#8 ∧ memory b.toNat ≠ 0#8 ∧ memory a.toNat = memory b.toNat then
      strcmpSimple memory fuel (a + 1#64) (b + 1#64)
    else some ((memory a.toNat).toNat - (memory b.toNat).toNat)

/-- The value of a digit in `hex8_to_u32`, 0 for any other character. A `char` from 0x80 on is
negative and in none of the ranges. -/
def hexDigit (c : Byte) : Word32 :=
  if 0x30#8 ≤ c ∧ c ≤ 0x39#8 then c.setWidth 32 - 0x30#32
  else if 0x61#8 ≤ c ∧ c ≤ 0x66#8 then c.setWidth 32 - 0x61#32 + 10#32
  else if 0x41#8 ≤ c ∧ c ≤ 0x46#8 then c.setWidth 32 - 0x41#32 + 10#32
  else 0#32

/-- The loop of `hex8_to_u32` with `count` digits left. -/
def hexDigits (memory : Memory) : ℕ → Word → Word32 → Word32
  | 0, _, v => v
  | count + 1, s, v =>
    hexDigits memory count (s + 1#64) ((v <<< 4) ||| hexDigit (memory s.toNat))

/-- `hex8_to_u32(s)`. -/
def hex8ToU32 (memory : Memory) (s : Word) : Word32 :=
  hexDigits memory 8 s 0#32

/-- `align4_ptr(x)`. -/
def align4Ptr (x : Word) : Word :=
  (x + 3#64) &&& ~~~3#64

/-! ### The table of files -/

/-- `initrd_file_t`. -/
structure InitrdFile where
  name : Word
  size : Word32
  data : Word
deriving DecidableEq

/-- `INITRD_MAX_FILES`. -/
abbrev initrdMaxFiles : ℕ := 128

/-- `sizeof(cpio_newc_header_t)`, and the offsets of `c_filesize` and `c_namesize` in it. -/
abbrev newcHeaderSize : Word := 110#64
abbrev filesizeOffset : Word := 54#64
abbrev namesizeOffset : Word := 94#64

/-- The magic that the code compares byte by byte. -/
def newcMagic : List Byte := [0x30#8, 0x37#8, 0x30#8, 0x37#8, 0x30#8, 0x31#8]

/-- `"TRAILER!!!"`. -/
def trailerName : List Byte :=
  [0x54#8, 0x52#8, 0x41#8, 0x49#8, 0x4C#8, 0x45#8, 0x52#8, 0x21#8, 0x21#8, 0x21#8]

/-- The six comparisons of `h->c_magic`, all passed. -/
def magicMatches (memory : Memory) (h : Word) : Prop :=
  byteAt memory h 0 = 0x30#8 ∧ byteAt memory h 1 = 0x37#8 ∧ byteAt memory h 2 = 0x30#8 ∧
    byteAt memory h 3 = 0x37#8 ∧ byteAt memory h 4 = 0x30#8 ∧ byteAt memory h 5 = 0x31#8

instance (memory : Memory) (h : Word) : Decidable (magicMatches memory h) :=
  inferInstanceAs (Decidable (_ ∧ _))

/-- A file added to the table while `initrd_file_count` is below the capacity. -/
def addFile (files : List InitrdFile) (file : InitrdFile) : List InitrdFile :=
  if files.length < initrdMaxFiles then files ++ [file] else files

/-- The loop of `initrd_init` at `p`. -/
def initrdScan (memory : Memory) (endPtr : Word) :
    ℕ → Word → List InitrdFile → Option (List InitrdFile)
  | 0, _, _ => none
  | fuel + 1, p, files =>
    if p + newcHeaderSize ≤ endPtr then
      if magicMatches memory p then
        let namesize := hex8ToU32 memory (p + namesizeOffset)
        let filesize := hex8ToU32 memory (p + filesizeOffset)
        let name := p + newcHeaderSize
        if namesize = 11#32 ∧
            memcmpSimple (byteAt memory name) (fun i ↦ trailerName.getD i 0#8) 10 = 0 then
          some files
        else
          let fileData := align4Ptr (name + namesize.setWidth 64)
          let next := align4Ptr (fileData + filesize.setWidth 64)
          if endPtr < next then some files
          else initrdScan memory endPtr fuel next (addFile files ⟨name, filesize, fileData⟩)
      else some files
    else some files

/-- `initrd_init(start, end)`: the first `initrd_file_count` entries of `initrd_files`. -/
def initrdInit (memory : Memory) (start endPtr : Word) : Option (List InitrdFile) :=
  initrdScan memory endPtr (endPtr.toNat + 1) start []

/-- The loop of `initrd_find` from index `i`. -/
def findFrom (memory : Memory) (name : Word) : List InitrdFile → ℕ → Option (Option ℕ)
  | [], _ => some none
  | file :: rest, i =>
    match strcmpSimple memory (2 ^ 64) file.name name with
    | none => none
    | some difference =>
      if difference = 0 then some (some i) else findFrom memory name rest (i + 1)

/-- `initrd_find(name)`: the index of the entry in `initrd_files`, or NULL. -/
def initrdFind (memory : Memory) (files : List InitrdFile) (name : Word) : Option (Option ℕ) :=
  findFrom memory name files 0

end Colix.Initrd
