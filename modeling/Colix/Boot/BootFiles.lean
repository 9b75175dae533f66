import Colix.Boot.InitrdModule
import Colix.Initrd.InitrdCorrect
import Colix.Proc.QuietMemory

/-!
# The files that the boot loader brought

`kernel_main` looks at the memory map before it sets up the page allocator, and at the module and
its files only after `vmm_init`, through the page tables of the kernel. `boot_finds_files` follows
the data over this: when the boot loader put the info block and the module below 2 MiB, beside the
boot page tables and the pool, the search finds the module, `initrd_init` the files of the archive
in it, and `initrd_find` each of them by name, in every state of every run.
-/

set_option autoImplicit false
set_option relaxedAutoImplicit false

namespace Colix.Boot

open Foundation Mm Proc Initrd

/-! ### Strings that the kernel can read -/

/-- A string, with its NUL, at an address that the kernel has mapped. -/
structure StringAt (pml4 : Word) (memory : Memory) (path : Word) (name : List Byte) : Prop where
  nulFree : 0#8 ∉ name
  reads : ∀ index (hindex : index < (name ++ [0#8]).length),
    Elf.readByte pml4 memory (path + BitVec.ofNat 64 index) = some (name ++ [0#8])[index]
  fits : path.toNat + name.length < 2 ^ 64

theorem StringAt.cString {pml4 path : Word} {memory : Memory} {name : List Byte}
    (hname : StringAt pml4 memory path name) :
    CString (readThrough pml4 memory) path.toNat name := by
  refine ⟨hname.nulFree, holds_of_getElem fun index hindex ↦ ?_⟩
  rw [readThrough, BitVec.ofNat_add, BitVec.ofNat_toNat, BitVec.setWidth_eq,
    hname.reads index hindex]
  rfl

/-! ### What the boot loader hands over -/

/-- The addresses of the info block and of the module. -/
def BootData (memory : Memory) (info modStart modEnd address : Word) : Prop :=
  InRange info.toNat (info.toNat + (load 32 memory info.toNat : Word32).toNat) address ∨
    InRange modStart.toNat modEnd.toNat address

/-- An address below 2 MiB that is in no boot page table and not in the pool. -/
structure Spares (layout : BootLayout) (address : Word) : Prop where
  low : address.toNat < 0x200000
  tables : address.toNat < layout.pml4Table.toNat ∨
    layout.pml4Table.toNat + 4 * 4096 ≤ address.toNat
  pool : address.toNat < layout.ptPool.toNat ∨ layout.ptPool.toNat + 262144 ≤ address.toNat

/-- What `kernel_main` starts with: the cleared `.bss`, a well-formed block whose memory ends below
2^47 and that names a module, both in places of their own. -/
structure Handover (layout : BootLayout) (memory : Memory) (info modStart modEnd : Word)
    (tags : List Tag) : Prop where
  bss : BssCleared layout memory
  block : InfoBlock memory info tags
  available : ∀ entry ∈ mmapEntries tags, entry.Available →
    entry.baseAddr.toNat + entry.length.toNat ≤ 2 ^ 47
  module : firstModule tags = some (modStart, modEnd)
  data : ∀ address, BootData memory info modStart modEnd address → Spares layout address

section Handover

variable {layout : BootLayout} {memory : Memory} {before : Pmm} {info modStart modEnd : Word}
  {tags : List Tag} {region : Region} {s : SpaceState} {events : List SpaceEvent}

/-- `setup_paging` leaves the boot loader's data alone. -/
theorem Handover.setupPaging_apply (hboot : Handover layout memory info modStart modEnd tags)
    {address : Word} (haddress : BootData memory info modStart modEnd address) :
    setupPaging layout memory address.toNat = memory address.toNat :=
  setupPaging_apply_of_disjoint layout (hboot.data address haddress).tables

/-- An address in the info block. -/
theorem Handover.inBlock (hboot : Handover layout memory info modStart modEnd tags) {byte : ℕ}
    (hge : info.toNat ≤ byte)
    (hlt : byte < info.toNat + (load 32 memory info.toNat : Word32).toNat) :
    (BitVec.ofNat 64 byte : Word).toNat = byte ∧
      BootData memory info modStart modEnd (BitVec.ofNat 64 byte) := by
  have hbound := hboot.block.bound
  have hbyte : (BitVec.ofNat 64 byte : Word).toNat = byte := by
    rw [BitVec.toNat_ofNat, Nat.mod_eq_of_lt (by omega)]
  refine ⟨hbyte, Or.inl ?_⟩
  rw [InRange, hbyte]
  exact ⟨hge, hlt⟩

/-- An address in the module. -/
theorem inModule {byte : ℕ} (hge : modStart.toNat ≤ byte) (hlt : byte < modEnd.toNat) :
    (BitVec.ofNat 64 byte : Word).toNat = byte ∧
      BootData memory info modStart modEnd (BitVec.ofNat 64 byte) := by
  have hend := modEnd.isLt
  have hbyte : (BitVec.ofNat 64 byte : Word).toNat = byte := by
    rw [BitVec.toNat_ofNat, Nat.mod_eq_of_lt (by omega)]
  refine ⟨hbyte, Or.inr ?_⟩
  rw [InRange, hbyte]
  exact ⟨hge, hlt⟩

/-- The block is well formed in a memory that has the boot loader's data. -/
theorem Handover.block_congr (hboot : Handover layout memory info modStart modEnd tags)
    {later : Memory} (hagree : ∀ address, BootData memory info modStart modEnd address →
      later address.toNat = memory address.toNat) : InfoBlock later info tags := by
  refine hboot.block.congr fun byte hge hlt ↦ ?_
  obtain ⟨hbyte, hdata⟩ := hboot.inBlock hge hlt
  have hsame := hagree _ hdata
  rwa [hbyte] at hsame

/-- The page tables and the supply that `vmm_init` starts with. -/
theorem Handover.kernelMapped (hboot : Handover layout memory info modStart modEnd tags)
    (before : Pmm)
    (hregion : memoryRegion (setupPaging layout memory) info = some region) :
    KernelMapped layout.pml4Table (bootState layout memory before region.base region.size).2
        (bootState layout memory before region.base region.size).1
        (bootState layout memory before region.base region.size).2 ∧
      (regionBase region.base).toNat + regionPages region.size * 4096 ≤ 2 ^ 48 := by
  obtain ⟨hlow, hhigh⟩ := memoryRegion_base (hboot.block_congr fun address haddress ↦
    hboot.setupPaging_apply haddress) hboot.available hregion
  obtain ⟨hbaseLow, hbaseHigh⟩ := regionBase_bounds hlow hhigh
  have hpages : regionPages region.size ≤ 131072 := min_le_right _ _
  have hend : (regionBase region.base).toNat + regionPages region.size * 4096 ≤ 2 ^ 48 := by
    omega
  have hready : RegionReady (pmmInit before region.base region.size) :=
    regionReady_pmmInit before hbaseLow (hend.trans (by decide))
  exact ⟨(poolMapped_boot hboot.bss hready).toKernelMapped, hend⟩

/-- The boot loader's data is in no table, and cannot be handed out. -/
theorem Handover.untouched (hboot : Handover layout memory info modStart modEnd tags)
    (hmapped : KernelMapped layout.pml4Table
      (bootState layout memory before region.base region.size).2
      (bootState layout memory before region.base region.size).1
      (bootState layout memory before region.base region.size).2) :
    Untouched (BootData memory info modStart modEnd)
      (bootState layout memory before region.base region.size).1
      (fun root ↦ root = layout.pml4Table)
      (bootState layout memory before region.base region.size).1
      (bootState layout memory before region.base region.size).2 := by
  have hbase := hmapped.spaces.ready.region.base_ge
  refine ⟨fun address haddress hpage ↦ ?_, ?_, fun _ _ ↦ rfl⟩
  · obtain ⟨hlow, -, hpool⟩ := hboot.data address haddress
    have hpoolMod := layout.pool_mod
    have haligned := toNat_pageOf address
    rcases hpage with ⟨number, -, hlt, hnumber⟩ | hfree
    · change _ = layout.ptPool.toNat + _ at hnumber
      omega
    · have hinRegion := hfree.inRegion
      omega
  · rintro address haddress _ rfl htable
    simp only [bootState] at htable
    obtain ⟨-, htables, -⟩ := hboot.data address haddress
    obtain ⟨level, hlevel, hsame⟩ := table_of_setupPaging layout hboot.bss htable
    have hnumber := congrArg BitVec.toNat hsame
    have hmod := layout.tables_mod
    rw [toNat_pageOf, layout.toNat_table hlevel] at hnumber
    omega

/-- The runs of the kernel that leave the boot loader's data alone keep it. -/
theorem Handover.quiet (hboot : Handover layout memory info modStart modEnd tags)
    (hregion : memoryRegion (setupPaging layout memory) info = some region)
    (hclean : CleanWindow layout.pml4Table
      (bootState layout memory before region.base region.size))
    (hrun : (quietSystem layout.pml4Table
      (bootState layout memory before region.base region.size)
        (BootData memory info modStart modEnd)).Run events s) :
    QuietInvariant layout.pml4Table
      (bootState layout memory before region.base region.size)
      (BootData memory info modStart modEnd) s := by
  obtain ⟨hmapped, hend⟩ := hboot.kernelMapped before hregion
  have htotal := toNat_totalPages_pmmInit before region.base region.size
  refine quiet_run hmapped ?_ hclean (fun address haddress ↦ (hboot.data address haddress).low)
    (hboot.untouched hmapped) hrun
  change (regionBase region.base).toNat +
    (pmmInit before region.base region.size).pmmTotalPages.toNat * 4096 ≤ 2 ^ 48
  rw [htotal]
  exact hend

/-- What the kernel reads at the addresses of the boot loader's data is what the boot loader put
there. -/
theorem Handover.readByte (hboot : Handover layout memory info modStart modEnd tags)
    (hquiet : QuietInvariant layout.pml4Table
      (bootState layout memory before region.base region.size)
      (BootData memory info modStart modEnd) s)
    {address : Word} (haddress : BootData memory info modStart modEnd address) :
    Elf.readByte layout.pml4Table s.memory address = some (memory address.toNat) := by
  rw [hquiet.readByte (fun address haddress ↦ (hboot.data address haddress).low) haddress]
  simp only [bootState, hboot.setupPaging_apply haddress]

theorem Handover.readThrough (hboot : Handover layout memory info modStart modEnd tags)
    (hquiet : QuietInvariant layout.pml4Table
      (bootState layout memory before region.base region.size)
      (BootData memory info modStart modEnd) s)
    {address : Word} (haddress : BootData memory info modStart modEnd address) :
    Proc.readThrough layout.pml4Table s.memory address.toNat = memory address.toNat := by
  rw [Proc.readThrough, BitVec.ofNat_toNat, BitVec.setWidth_eq, hboot.readByte hquiet haddress]
  rfl

/-- The bytes of the module, through the page tables. -/
theorem Handover.readThrough_module (hboot : Handover layout memory info modStart modEnd tags)
    (hquiet : QuietInvariant layout.pml4Table
      (bootState layout memory before region.base region.size)
      (BootData memory info modStart modEnd) s)
    {position : ℕ} (hge : modStart.toNat ≤ position) (hlt : position < modEnd.toNat) :
    Proc.readThrough layout.pml4Table s.memory position = memory position := by
  obtain ⟨hposition, hdata⟩ := inModule hge hlt
  have hsame := hboot.readThrough hquiet hdata
  rwa [hposition] at hsame

/-- The search for the module reads the info block as the boot loader left it. -/
theorem Handover.findModule (hboot : Handover layout memory info modStart modEnd tags)
    (hquiet : QuietInvariant layout.pml4Table
      (bootState layout memory before region.base region.size)
      (BootData memory info modStart modEnd) s) :
    Boot.findModule (Proc.readThrough layout.pml4Table s.memory)
        (load 32 memory info.toNat : Word32).toNat (info + 8#64) =
      some (some (modStart, modEnd)) := by
  have hblock : InfoBlock (Proc.readThrough layout.pml4Table s.memory) info tags :=
    hboot.block_congr fun _ haddress ↦ hboot.readThrough hquiet haddress
  have hsize : (load 32 (Proc.readThrough layout.pml4Table s.memory) info.toNat : Word32) =
      load 32 memory info.toNat := by
    refine load_congr fun byte hge hlt ↦ ?_
    have hsize := hboot.block.size_ge
    obtain ⟨hbyte, hdata⟩ := hboot.inBlock hge (by omega)
    have hsame := hboot.readThrough hquiet hdata
    rwa [hbyte] at hsame
  rw [← hsize, findModule_of_block hblock, hboot.module]

/-- `initrd_init` reads the module as the boot loader left it. -/
theorem Handover.initrdInit (hboot : Handover layout memory info modStart modEnd tags)
    (hquiet : QuietInvariant layout.pml4Table
      (bootState layout memory before region.base region.size)
      (BootData memory info modStart modEnd) s)
    {entries : List NewcFile} {archive : List Byte} (harchive : IsNewcArchive entries archive)
    (hholds : Holds memory modStart.toNat archive) (haligned : 4 ∣ modStart.toNat)
    (hend : modStart.toNat + archive.length = modEnd.toNat) :
    ∃ files, Initrd.initrdInit (Proc.readThrough layout.pml4Table s.memory) modStart modEnd =
        some files ∧
      List.Forall₂ (Describes memory modStart.toNat modEnd.toNat) files
        (entries.take initrdMaxFiles) := by
  have hheld : Holds (Proc.readThrough layout.pml4Table s.memory) modStart.toNat archive :=
    hholds.congr fun position hge hlt ↦ hboot.readThrough_module hquiet hge (by omega)
  have hempty : List.Forall₂
      (Describes (Proc.readThrough layout.pml4Table s.memory) modStart.toNat modEnd.toNat) []
        (List.take initrdMaxFiles []) := List.Forall₂.nil
  obtain ⟨files, hinit, hfiles⟩ := initrdScan_archive harchive hheld haligned le_rfl hend
    (by omega : archive.length < modEnd.toNat + 1) hempty
  rw [List.nil_append] at hfiles
  exact ⟨files, hinit, hfiles.imp fun found file hdescribes ↦ hdescribes.congr
    fun position hge hlt ↦ (hboot.readThrough_module hquiet hge hlt).symm⟩

/-- `initrd_find` finds the first file of the name. -/
theorem Handover.initrdFind (hboot : Handover layout memory info modStart modEnd tags)
    (hquiet : QuietInvariant layout.pml4Table
      (bootState layout memory before region.base region.size)
      (BootData memory info modStart modEnd) s)
    {files : List InitrdFile} {entries : List NewcFile} {path : Word} {name : List Byte}
    (hfiles : List.Forall₂ (Describes memory modStart.toNat modEnd.toNat) files entries)
    (hname : StringAt layout.pml4Table s.memory path name) :
    Initrd.initrdFind (Proc.readThrough layout.pml4Table s.memory) files path =
      some (entries.findIdx? fun file ↦ file.name = name) := by
  have hlater := hfiles.imp fun found file hdescribes ↦
    hdescribes.congr fun position hge hlt ↦ hboot.readThrough_module hquiet hge hlt
  rw [Initrd.initrdFind, findFrom_eq hlater modEnd.isLt hname.cString hname.fits 0]
  simp

end Handover

/-! ### The files -/

/-- From `vmm_init` on the kernel reaches its page tables where they lie, `kernel_main` finds the
module, `initrd_init` the first 128 files of its archive in order, and `initrd_find`, at any time
after it, the first of them with the name it is asked for, or none. Assumes: the module is aligned
to four bytes, and the directories that `vmm_init` makes come zeroed. -/
theorem boot_finds_files {layout : BootLayout} {memory : Memory} {before : Pmm}
    {info modStart modEnd : Word} {tags : List Tag} {region : Region} {entries : List NewcFile}
    {archive : List Byte} (hboot : Handover layout memory info modStart modEnd tags)
    (hregion : memoryRegion (setupPaging layout memory) info = some region)
    (hclean : CleanWindow layout.pml4Table
      (bootState layout memory before region.base region.size))
    (harchive : IsNewcArchive entries archive) (hholds : Holds memory modStart.toNat archive)
    (haligned : 4 ∣ modStart.toNat) (hend : modStart.toNat + archive.length = modEnd.toNat) :
    ∀ events s, (quietSystem layout.pml4Table
      (bootState layout memory before region.base region.size)
        (BootData memory info modStart modEnd)).Run events s →
      TablesInPlace layout.pml4Table s ∧
      findModule (readThrough layout.pml4Table s.memory)
          (load 32 memory info.toNat : Word32).toNat (info + 8#64) =
        some (some (modStart, modEnd)) ∧
      ∃ files, initrdInit (readThrough layout.pml4Table s.memory) modStart modEnd = some files ∧
        List.Forall₂ (Describes memory modStart.toNat modEnd.toNat) files
          (entries.take initrdMaxFiles) ∧
        ∀ later t, (quietSystem layout.pml4Table
          (bootState layout memory before region.base region.size)
            (BootData memory info modStart modEnd)).Path s later t →
          ∀ path name, StringAt layout.pml4Table t.memory path name →
            initrdFind (readThrough layout.pml4Table t.memory) files path =
              some ((entries.take initrdMaxFiles).findIdx? fun file ↦ file.name = name) := by
  intro events s hrun
  have hquiet := hboot.quiet hregion hclean hrun
  obtain ⟨files, hinit, hfiles⟩ := hboot.initrdInit hquiet harchive hholds haligned hend
  refine ⟨hquiet.tablesInPlace, hboot.findModule hquiet, files, hinit, hfiles,
    fun later t hpath path name hname ↦ ?_⟩
  exact hboot.initrdFind (hboot.quiet hregion hclean (hrun.append hpath)) hfiles hname

/-! ### A machine with an archive -/

/-- An info block of 40 bytes that names the module from 0x17FF88 to 0x1800F4. -/
def archiveBlock : List Byte :=
  [0x28#8, 0#8, 0#8, 0#8, 0#8, 0#8, 0#8, 0#8] ++
    [3#8, 0#8, 0#8, 0#8, 0x11#8, 0#8, 0#8, 0#8, 0x88#8, 0xFF#8, 0x17#8, 0#8, 0xF4#8, 0#8, 0x18#8,
      0#8, 0#8, 0#8, 0#8, 0#8, 0#8, 0#8, 0#8, 0#8] ++
    [0#8, 0#8, 0#8, 0#8, 8#8, 0#8, 0#8, 0#8]

/-- The file `bin/sh`, linked at 0x10000000. -/
def shellFile : NewcFile where
  name := [0x62#8, 0x69#8, 0x6E#8, 0x2F#8, 0x73#8, 0x68#8]
  data := Elf.highImage
  name_ne_nil := by decide
  nul_free := by decide
  not_trailer := by decide

/-- The memory with the block and the archive. -/
def archiveMemory : Memory :=
  placeBytes (memoryWith 0x9000 archiveBlock) 0x17FF88 (newcArchive [shellFile])

theorem isNewcArchive_shellFile : IsNewcArchive [shellFile] (newcArchive [shellFile]) := by
  refine isNewcArchive_newcArchive fun file hmem ↦ ?_
  rw [List.mem_singleton] at hmem
  subst hmem
  decide

theorem length_shellArchive : (newcArchive [shellFile]).length = 364 := by
  simp only [newcArchive, newcEntry, newcHeader, zeroPadding, length_hexNumeral,
    List.length_append, List.length_replicate]
  rfl

/-- The memory away from the archive. -/
theorem archiveMemory_apply {position : ℕ}
    (houtside : position < 0x17FF88 ∨ 0x1800F4 ≤ position) :
    archiveMemory position = memoryWith 0x9000 archiveBlock position := by
  refine if_neg ?_
  rw [length_shellArchive]
  omega

theorem holds_archiveMemory : Holds archiveMemory (0x17FF88#64 : Word).toNat
    (newcArchive [shellFile]) := by
  refine holds_of_getElem fun index hindex ↦ ?_
  change placeBytes _ 0x17FF88 _ (0x17FF88 + index) = _
  rw [placeBytes, if_pos ⟨by omega, by omega⟩, Nat.add_sub_cancel_left,
    List.getD_eq_getElem _ _ hindex]

/-- The block is well formed. -/
theorem infoBlock_archiveBlock :
    InfoBlock archiveMemory 0x9000#64 [.module 17#32 0x17FF88#32 0x1800F4#32] := by
  have hinfo : (0x9000#64 : Word).toNat = 0x9000 := rfl
  have hsize : (load 32 (memoryWith 0x9000 archiveBlock) 0x9000 : Word32) = 0x28#32 := rfl
  have hspace : (Tag.module 17#32 0x17FF88#32 0x1800F4#32).space = 24 := by
    simp only [Tag.space, Tag.size]
    decide
  have htags : TagsAt (memoryWith 0x9000 archiveBlock) 0x9008
      [.module 17#32 0x17FF88#32 0x1800F4#32] 0x9020 := by
    refine ⟨rfl, rfl, ⟨by decide, by decide, by decide⟩, ?_⟩
    rw [hspace]
    exact ⟨rfl, rfl⟩
  have hblock : InfoBlock (memoryWith 0x9000 archiveBlock) 0x9000#64
      [.module 17#32 0x17FF88#32 0x1800F4#32] := by
    refine ⟨by decide, ?_, ?_, ?_⟩
    · rw [hinfo, hsize]
      decide
    · rw [hinfo, hsize]
      decide
    · rw [hinfo, hsize]
      exact htags
  refine hblock.congr fun byte hge hlt ↦ archiveMemory_apply (Or.inl ?_)
  rw [hinfo, hsize] at hlt
  exact hlt.trans (by decide)

/-- The boot loader's data on that machine. -/
abbrev ArchiveData : Word → Prop :=
  BootData archiveMemory 0x9000#64 0x17FF88#64 0x1800F4#64

theorem toNat_of_archiveData {address : Word} (haddress : ArchiveData address) :
    0x9000 ≤ address.toNat ∧ address.toNat < 0x9028 ∨
      0x17FF88 ≤ address.toNat ∧ address.toNat < 0x1800F4 := by
  have hsize : (load 32 archiveMemory (0x9000#64 : Word).toNat : Word32) = 0x28#32 := by
    refine (load_congr fun position _ hlt ↦ archiveMemory_apply (Or.inl ?_)).trans
      (show (load 32 (memoryWith 0x9000 archiveBlock) 0x9000 : Word32) = 0x28#32 from rfl)
    exact hlt.trans (by decide)
  rcases haddress with hblock | hmodule
  · rw [hsize] at hblock
    exact Or.inl hblock
  · exact Or.inr hmodule

theorem archive_handover : Handover BootLayout.low archiveMemory 0x9000#64 0x17FF88#64
    0x1800F4#64 [.module 17#32 0x17FF88#32 0x1800F4#32] := by
  refine ⟨fun position hge hlt ↦ ?_, infoBlock_archiveBlock, fun _ hmem ↦ ?_, rfl,
    fun address haddress ↦ ?_⟩
  · have hfar : 0x110000 ≤ position := hge
    have hnear : position < 0x114000 := hlt
    have hlength : archiveBlock.length ≤ position - 0x9000 := by
      change 40 ≤ position - 0x9000
      omega
    rw [archiveMemory_apply (by omega), memoryWith, if_pos (by omega),
      List.getD_eq_default _ _ hlength]
  · cases hmem
  · have hplace := toNat_of_archiveData haddress
    have htables : BootLayout.low.pml4Table.toNat = 0x110000 := rfl
    have hpool : BootLayout.low.ptPool.toNat = 0x120000 := rfl
    constructor
    · omega
    · omega
    · rw [hpool]
      omega

/-- The state `vmm_init` starts in on that machine. -/
def archiveBoot : Memory × TableSupply :=
  bootState BootLayout.low archiveMemory Pmm.bss 0x200000#64 0x1F00000#64

theorem memoryRegion_archive : memoryRegion (setupPaging BootLayout.low archiveMemory) 0x9000#64 =
    some ⟨0x200000#64, 0x1F00000#64⟩ := by
  have hblock := archive_handover.block_congr fun _ haddress ↦
    archive_handover.setupPaging_apply haddress
  rw [memoryRegion, parseMmap_of_block hblock.mapBlock]
  decide

/-- `vmm_init` runs there, and leaves pages and page tables. -/
theorem archive_boots : ∃ next supply,
    (quietSystem BootLayout.low.pml4Table archiveBoot ArchiveData).Run [] ⟨next, supply, [], []⟩ ∧
      CleanWindow BootLayout.low.pml4Table archiveBoot ∧ (∃ page, FreePage supply.pmm page) ∧
        supply.ptPoolUsed.toNat + 3 * 4096 ≤ 262144 := by
  have hregion : RegionReady (pmmInit Pmm.bss 0x200000#64 0x1F00000#64) :=
    regionReady_pmmInit Pmm.bss (by decide) (by decide)
  have htotal : archiveBoot.2.pmm.pmmTotalPages.toNat = 0x1F00 :=
    toNat_totalPages_pmmInit Pmm.bss 0x200000#64 0x1F00000#64
  have hbase : archiveBoot.2.pmm.pmmBase = 0x200000#64 := by
    have hfirst : archiveBoot.2.pmm.pmmBase = regionBase 0x200000#64 := rfl
    exact hfirst.trans (by decide)
  have hmapped : PoolMapped BootLayout.low.pml4Table archiveBoot.2 ∅ archiveBoot.1
      archiveBoot.2 := by
    have hboot := poolMapped_boot archive_handover.bss hregion
    simpa only [archiveBoot] using hboot
  have htaken : PagesTaken archiveBoot.2.pmm 0 archiveBoot.2.pmm := by
    have hpages := pagesTaken_pmmInit Pmm.bss 0x200000#64 0x1F00000#64 hregion
    simpa only [archiveBoot, bootState] using hpages
  have hsuffices : PoolSuffices archiveBoot.2 (Finset.Icc 1 16) :=
    poolSuffices_Icc (by decide) (by decide) (by rw [hbase]; decide)
      (by rw [hbase, htotal]; decide) (by decide)
  have hcount : 1024 < archiveBoot.2.pmm.pmmTotalPages.toNat :=
    lt_of_lt_of_eq (by decide) htotal.symm
  have hclean := hmapped.toKernelMapped.cleanWindow (by rw [hbase, htotal]; decide)
  obtain ⟨next, supply, hinit, -, ⟨touched, hsubset, hpool⟩, hpages, -⟩ :=
    vmmInit_pool hsuffices hcount.le hmapped htaken
  have hcard := Finset.card_le_card hsubset
  have hused := hpool.used
  rw [Nat.card_Icc] at hcard
  rw [Prod.mk.eta] at hinit hclean
  obtain ⟨last, -, -, hlast⟩ := hpages.pmmAlloc (by rwa [hpages.total_eq])
  have htables : TablesDirect BootLayout.low.pml4Table (Direct archiveBoot.2.pmm)
      ⟨next, supply, [], []⟩ := by
    intro root table hroot htable
    obtain rfl : root = BootLayout.low.pml4Table := hroot.resolve_right (by simp)
    exact ⟨hpool.spaces.pageAligned rfl htable, Or.inl (hpool.below table htable)⟩
  exact ⟨next, supply, TransitionSystem.Run.start ⟨⟨hinit, rfl, rfl⟩, htables⟩, hclean,
    ⟨_, hlast.free⟩, by omega⟩

/-- On that machine `bin/sh` is found. -/
theorem boot_finds_files_shell : ∃ s files,
    (quietSystem BootLayout.low.pml4Table archiveBoot ArchiveData).Run [] s ∧
      initrdInit (readThrough BootLayout.low.pml4Table s.memory) 0x17FF88#64 0x1800F4#64 =
          some files ∧
        List.Forall₂ (Describes archiveMemory 0x17FF88 0x1800F4) files [shellFile] := by
  obtain ⟨next, supply, hrun, hclean, -⟩ := archive_boots
  obtain ⟨-, -, files, hinit, hfiles, -⟩ := boot_finds_files archive_handover memoryRegion_archive
    hclean isNewcArchive_shellFile holds_archiveMemory (by decide)
    (by rw [length_shellArchive]; decide) [] _ hrun
  exact ⟨_, files, hrun, hinit, hfiles⟩

end Colix.Boot
