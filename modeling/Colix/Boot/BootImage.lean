import Colix.Boot.BootFiles
import Colix.Elf.FileImage

/-!
# From the archive to the image

`elf_load_from_initrd` with the search that it starts with, on the files that the boot loader
brought. `boot_loads_image` goes from the bytes of the archive to the bytes of the segments: through
`vmm_init`, the table of `initrd_init`, any run in between, the search by name and the loader.
-/

set_option autoImplicit false
set_option relaxedAutoImplicit false

namespace Colix.Boot

open Foundation Mm Proc Initrd Elf

/-! ### The loader and its search -/

/-- What `initrd_find` gives the loader: an entry of the table, or NULL. -/
def foundFile (pml4 : Word) (files : List InitrdFile) (path : Word) (memory : Memory) :
    Option (Option InitrdFile) :=
  (initrdFind (readThrough pml4 memory) files path).map fun index ↦
    index.bind fun i ↦ files[i]?

/-- `elf_load_from_initrd(path)`. -/
def elfLoadFromPath (pml4 : Word) (files : List InitrdFile) (path : Word)
    (state : Memory × TableSupply) : Option (Option Word × Memory × TableSupply) :=
  (foundFile pml4 files path state.1).bind fun file ↦ elfLoadFromInitrd pml4 file state

section Found

variable {low high : ℕ} {files : List InitrdFile} {entries : List NewcFile} {memory : Memory}
  {name : List Byte} {file : NewcFile}

/-- The entry at the index of a file describes it. -/
theorem exists_describes (hfiles : List.Forall₂ (Describes memory low high) files entries)
    (hfind : entries.find? (fun file ↦ file.name = name) = some file) :
    ∃ index found, entries.findIdx? (fun file ↦ file.name = name) = some index ∧
      files[index]? = some found ∧ Describes memory low high found file := by
  induction hfiles with
  | nil => cases hfind
  | @cons found first files entries hfirst _ ih =>
    rw [List.find?_cons] at hfind
    by_cases hname : first.name = name
    · simp only [hname, decide_true, Option.some.injEq] at hfind
      subst hfind
      exact ⟨0, found, by simp [List.findIdx?_cons, hname], rfl, hfirst⟩
    · simp only [hname, decide_false] at hfind
      obtain ⟨index, other, hindex, hother, hdescribes⟩ := ih hfind
      exact ⟨index + 1, other, by simp [List.findIdx?_cons, hname, hindex], hother, hdescribes⟩

end Found

section Handover

variable {layout : BootLayout} {memory : Memory} {before : Pmm} {info modStart modEnd : Word}
  {tags : List Tag} {region : Region} {s : SpaceState} {found : InitrdFile} {file : NewcFile}

/-- The addresses of a file of the module are the boot loader's. -/
theorem bootData_of_inFile (hfound : Describes memory modStart.toNat modEnd.toNat found file)
    {address : Word} (haddress : InFile found address) :
    BootData memory info modStart modEnd address := by
  obtain ⟨hlow, hhigh⟩ := hfound.data_within
  have hend := modEnd.isLt
  rw [InFile, hfound.size] at haddress
  have hnumber : address.toNat = found.data.toNat + (address - found.data).toNat := by
    have hsum : (found.data + (address - found.data)).toNat = address.toNat :=
      congrArg BitVec.toNat (by grind)
    rw [BitVec.toNat_add, Nat.mod_eq_of_lt (by omega)] at hsum
    exact hsum.symm
  exact Or.inr ⟨by omega, by omega⟩

/-- A file linked apart from the direct pages is linked apart from all addresses below 2 MiB. -/
theorem linkedApart_low {pmm : Pmm} {quiet : Word → Prop} {data : List Byte}
    (hlow : ∀ address, quiet address → address.toNat < 0x200000)
    (hapart : LinkedApart (Direct pmm) data) : LinkedApart quiet data := by
  intro i hi segment hsegment p hp address haddress
  rw [← virtualPage_pageOf]
  exact hapart i hi segment hsegment p hp (pageOf address) (direct_pageOf (hlow address haddress))

/-- So it is linked apart from itself. -/
theorem Handover.linkedApart_inFile (hboot : Handover layout memory info modStart modEnd tags)
    (hfound : Describes memory modStart.toNat modEnd.toNat found file) {pmm : Pmm}
    {data : List Byte} (hapart : LinkedApart (Direct pmm) data) :
    LinkedApart (InFile found) data :=
  linkedApart_low (fun _ haddress ↦ (hboot.data _ (bootData_of_inFile hfound haddress)).low) hapart

/-- The file lies where no table and no page of the page allocator is. -/
theorem Handover.fileSafe (hboot : Handover layout memory info modStart modEnd tags)
    (hquiet : QuietInvariant layout.pml4Table
      (bootState layout memory before region.base region.size)
      (BootData memory info modStart modEnd) s)
    (hfound : Describes memory modStart.toNat modEnd.toNat found file) :
    FileSafe layout.pml4Table found s := by
  intro address haddress
  have hdata : BootData memory info modStart modEnd address := bootData_of_inFile hfound haddress
  exact ⟨pageOf address, hquiet.own (hboot.data address hdata).low,
    hquiet.untouched.taken address hdata, hquiet.untouched.unused address hdata _ (Or.inl rfl)⟩

/-- A place further on in the module. -/
theorem inModule_add {base : Word} {k : ℕ} (hlow : modStart.toNat ≤ base.toNat)
    (hhigh : base.toNat + k < modEnd.toNat) :
    (base + BitVec.ofNat 64 k).toNat = base.toNat + k ∧
      BootData memory info modStart modEnd (base + BitVec.ofNat 64 k) := by
  have hend := modEnd.isLt
  have hplace : (base + BitVec.ofNat 64 k).toNat = base.toNat + k := by
    rw [BitVec.toNat_add, BitVec.toNat_ofNat]
    omega
  exact ⟨hplace, Or.inr ⟨by omega, by omega⟩⟩

/-- The loader reads the bytes that the archive has. -/
theorem Handover.holdsFile (hboot : Handover layout memory info modStart modEnd tags)
    (hquiet : QuietInvariant layout.pml4Table
      (bootState layout memory before region.base region.size)
      (BootData memory info modStart modEnd) s)
    (hfound : Describes memory modStart.toNat modEnd.toNat found file) :
    HoldsFile layout.pml4Table s.memory found file.data := by
  refine ⟨hfound.size, fun k hk ↦ ?_⟩
  obtain ⟨hlow, hhigh⟩ := hfound.data_within
  obtain ⟨hplace, hdata⟩ := inModule_add hlow
    (show found.data.toNat + k < modEnd.toNat by omega)
  rw [hboot.readByte hquiet hdata, hplace, hfound.data.getElem hk, dataBytes,
    List.getD_eq_getElem _ _ hk]

/-- The kernel can read its name. -/
theorem Handover.stringAt (hboot : Handover layout memory info modStart modEnd tags)
    (hquiet : QuietInvariant layout.pml4Table
      (bootState layout memory before region.base region.size)
      (BootData memory info modStart modEnd) s)
    (hfound : Describes memory modStart.toNat modEnd.toNat found file) :
    StringAt layout.pml4Table s.memory found.name file.name := by
  obtain ⟨hlow, hhigh⟩ := hfound.name_within
  have hend := modEnd.isLt
  refine ⟨hfound.name.nulFree, fun index hindex ↦ ?_, by omega⟩
  rw [List.length_append, List.length_singleton] at hindex
  obtain ⟨hplace, hdata⟩ := inModule_add hlow
    (show found.name.toNat + index < modEnd.toNat by omega)
  rw [hboot.readByte hquiet hdata, hplace, hfound.name.holds.getElem]

/-- The search gives the loader an entry that describes the first file of the name. -/
theorem Handover.foundFile (hboot : Handover layout memory info modStart modEnd tags)
    (hquiet : QuietInvariant layout.pml4Table
      (bootState layout memory before region.base region.size)
      (BootData memory info modStart modEnd) s)
    {files : List InitrdFile} {entries : List NewcFile} {path : Word} {name : List Byte}
    (hfiles : List.Forall₂ (Describes memory modStart.toNat modEnd.toNat) files entries)
    (hname : StringAt layout.pml4Table s.memory path name)
    (hfind : entries.find? (fun file ↦ file.name = name) = some file) :
    ∃ found, Boot.foundFile layout.pml4Table files path s.memory = some (some found) ∧
      Describes memory modStart.toNat modEnd.toNat found file := by
  obtain ⟨index, found, hindex, hentry, hfound⟩ := exists_describes hfiles hfind
  refine ⟨found, ?_, hfound⟩
  rw [Boot.foundFile, hboot.initrdFind hquiet hfiles hname, hindex, Option.map_some,
    Option.bind_some, hentry]

/-- What holds after a load of a file in order. -/
theorem Handover.loading (hboot : Handover layout memory info modStart modEnd tags)
    (hquiet : QuietInvariant layout.pml4Table
      (bootState layout memory before region.base region.size)
      (BootData memory info modStart modEnd) s)
    (hfound : Describes memory modStart.toNat modEnd.toNat found file)
    (hproper : ProperFile file.data)
    (hapart : LinkedApart (Direct (pmmInit before region.base region.size)) file.data)
    (hclean : EverySegment layout.pml4Table found.data (filePhoff file.data)
      (s.memory, s.supply) (CleanSegment layout.pml4Table))
    {entry : Word} {next : Memory} {supplyNext : TableSupply}
    (hload : elfLoadFromInitrd layout.pml4Table (some found) (s.memory, s.supply) =
      some (some entry, next, supplyNext)) :
    Loading layout.pml4Table (bootState layout memory before region.base region.size)
      (Direct (pmmInit before region.base region.size)) s next supplyNext := by
  have hreads := hboot.holdsFile hquiet hfound
  have hspaces := hquiet.space.spaces
  obtain ⟨hsize, -⟩ := hreads.accepted hload
  exact loading_of_elfLoad hspaces (hproper.fileApart hspaces (hboot.fileSafe hquiet hfound)
    hreads hsize (hboot.linkedApart_inFile hfound hapart) hapart hclean) hload

/-- It leaves the boot loader's data alone. -/
theorem Handover.readByte_load (hboot : Handover layout memory info modStart modEnd tags)
    (hquiet : QuietInvariant layout.pml4Table
      (bootState layout memory before region.base region.size)
      (BootData memory info modStart modEnd) s)
    {next : Memory} {supplyNext : TableSupply}
    (hloading : Loading layout.pml4Table
      (bootState layout memory before region.base region.size)
        (Direct (pmmInit before region.base region.size)) s next supplyNext)
    {address : Word} (haddress : BootData memory info modStart modEnd address) :
    Elf.readByte layout.pml4Table next address = some (memory address.toNat) := by
  rw [hquiet.readByte_load (fun address haddress ↦ (hboot.data address haddress).low) hloading
    haddress]
  simp only [bootState, hboot.setupPaging_apply haddress]

end Handover

/-! ### The image -/

/-- In every run from `vmm_init` on in which the boot loader's data is not written to and nothing is
mapped at a direct page, a load by name refuses a name that the archive does not have and changes
nothing. For the first file with the name, when it is in order and linked apart from the direct
pages, a load that succeeds accepts the file's magic, returns its entry point and leaves its image
in place, and the kernel still reads the boot loader's data and reaches its page tables. Assumes:
the module is aligned to four bytes, directories come zeroed, and the load makes no page table at an
address of the heap. -/
theorem boot_loads_image {layout : BootLayout} {memory : Memory} {before : Pmm}
    {info modStart modEnd : Word} {tags : List Tag} {region : Region} {entries : List NewcFile}
    {archive : List Byte} (hboot : Handover layout memory info modStart modEnd tags)
    (hregion : memoryRegion (setupPaging layout memory) info = some region)
    (hclean : CleanWindow layout.pml4Table
      (bootState layout memory before region.base region.size))
    (harchive : IsNewcArchive entries archive) (hholds : Holds memory modStart.toNat archive)
    (haligned : 4 ∣ modStart.toNat) (hend : modStart.toNat + archive.length = modEnd.toNat) :
    ∀ events s, (quietSystem layout.pml4Table
      (bootState layout memory before region.base region.size)
        (BootData memory info modStart modEnd)).Run events s →
      ∃ files, initrdInit (readThrough layout.pml4Table s.memory) modStart modEnd = some files ∧
        ∀ later t, (quietSystem layout.pml4Table
          (bootState layout memory before region.base region.size)
            (BootData memory info modStart modEnd)).Path s later t →
          ∀ path name, StringAt layout.pml4Table t.memory path name →
            (((entries.take initrdMaxFiles).find? (fun file ↦ file.name = name) = none →
              elfLoadFromPath layout.pml4Table files path (t.memory, t.supply) =
                some (none, t.memory, t.supply)) ∧
            ∀ file, (entries.take initrdMaxFiles).find? (fun file ↦ file.name = name) =
                some file →
              ProperFile file.data →
              LinkedApart (Direct (pmmInit before region.base region.size)) file.data →
              (∀ found, foundFile layout.pml4Table files path t.memory = some (some found) →
                EverySegment layout.pml4Table found.data (filePhoff file.data)
                  (t.memory, t.supply) (CleanSegment layout.pml4Table)) →
              ∀ entry next supplyNext,
                elfLoadFromPath layout.pml4Table files path (t.memory, t.supply) =
                    some (some entry, next, supplyNext) →
                  TablesDirect layout.pml4Table (Direct (pmmInit before region.base region.size))
                      ⟨next, supplyNext, t.processes, t.held⟩ →
                    FileLoaded layout.pml4Table file.data entry next ∧
                      (∀ address, BootData memory info modStart modEnd address →
                        readByte layout.pml4Table next address = some (memory address.toNat)) ∧
                      TablesInPlace layout.pml4Table ⟨next, supplyNext, t.processes, t.held⟩) := by
  intro events s hrun
  have hquiet := hboot.quiet hregion hclean hrun
  obtain ⟨files, hinit, hfiles⟩ := hboot.initrdInit hquiet harchive hholds haligned hend
  refine ⟨files, hinit, fun later t hpath path name hname ↦ ?_⟩
  have hlater := hboot.quiet hregion hclean (hrun.append hpath)
  have hsearch := hboot.initrdFind hlater hfiles hname
  constructor
  · intro hnone
    rw [elfLoadFromPath, foundFile, hsearch,
      List.findIdx?_eq_none_iff.mpr (by simpa using List.find?_eq_none.mp hnone)]
    rfl
  · intro file hfind hproper hapart hcleanLoad entry next supplyNext hload htables
    obtain ⟨found, hfoundFile, hfound⟩ := hboot.foundFile hlater hfiles hname hfind
    have hcleanFile := hcleanLoad found hfoundFile
    rw [elfLoadFromPath, hfoundFile, Option.bind_some] at hload
    have hloading := hboot.loading hlater hfound hproper hapart hcleanFile hload
    refine ⟨?_, fun address haddress ↦ hboot.readByte_load hlater hloading haddress,
      hlater.tablesInPlace_load hloading htables⟩
    exact fileLoaded_of_elfLoad hlater.space.spaces (hboot.fileSafe hlater hfound)
      (hboot.holdsFile hlater hfound) hproper (hboot.linkedApart_inFile hfound hapart) hcleanFile
      hload

/-! ### The shell is loaded -/

/-- The segment of the shell. -/
theorem fileSegment_highImage : filePhnum highImage = 1#16 ∧ fileEntry highImage = 0x10000000#64 ∧
    filePhoff highImage = 64#64 ∧
      fileSegment highImage 0 = some (oneByte 0x10000000#64 0#64) := by
  decide +kernel

/-- Every segment of the shell is that one. -/
theorem everyFileSegment_highImage {condition : Segment → Prop}
    (hone : condition (oneByte 0x10000000#64 0#64)) : EveryFileSegment highImage condition := by
  obtain ⟨hphnum, -, -, hsegment⟩ := fileSegment_highImage
  intro i hi segment hfound
  rw [hphnum] at hi
  obtain rfl : i = 0 := Nat.lt_one_iff.mp hi
  rw [hsegment, Option.some.injEq] at hfound
  exact hfound ▸ hone

theorem properFile_highImage : ProperFile highImage := by
  obtain ⟨hphnum, -, hphoff, -⟩ := fileSegment_highImage
  refine ⟨?_, everyFileSegment_highImage (Or.inl rfl), everyFileSegment_highImage (by decide),
    everyFileSegment_highImage (by decide), fun i hi k hk hne ↦ ?_⟩
  · rw [hphnum, hphoff]
    decide
  · rw [hphnum] at hi hk
    have hi : i < 1 := hi
    have hk : k < 1 := hk
    omega

theorem linkedApart_highImage : LinkedApart (Direct archiveBoot.2.pmm) highImage := by
  obtain ⟨hpages, hplace⟩ := pages_oneByte (show PageAligned 0x10000000#64 from rfl) 0#64
  have htotal : archiveBoot.2.pmm.pmmTotalPages.toNat = 0x1F00 :=
    toNat_totalPages_pmmInit Pmm.bss 0x200000#64 0x1F00000#64
  have hbase : archiveBoot.2.pmm.pmmBase.toNat = 0x200000 := by decide
  refine everyFileSegment_highImage fun p hp page hpage ↦ ?_
  rw [hpages] at hp
  obtain rfl : p = 0 := by omega
  have hdirect := hpage.2
  rw [hbase, htotal] at hdirect
  have hhigh : (0x10000000#64 : Word).toNat = 0x10000000 := rfl
  rw [hplace]
  exact virtualPage_ne (by omega) (by omega) (by omega)

/-- The data of the shell begins a page: its first byte stands nowhere else in the archive. -/
theorem shell_data {found : InitrdFile}
    (hfound : Describes archiveMemory 0x17FF88 0x1800F4 found shellFile) :
    found.data = 0x180000#64 := by
  have hplace : ∀ offset < 364, (newcArchive [shellFile]).getD offset 0#8 = 0x7F#8 →
      offset = 120 := by decide +kernel
  obtain ⟨hlow, hhigh⟩ := hfound.data_within
  have hlength : shellFile.data.length = 120 := rfl
  have hbyte : archiveMemory (found.data.toNat + 0) = 0x7F#8 :=
    hfound.data.getElem (show 0 < shellFile.data.length by decide)
  rw [archiveMemory, placeBytes, if_pos ⟨by omega, by rw [length_shellArchive]; omega⟩] at hbyte
  have hoffset := hplace _ (by omega) hbyte
  apply BitVec.eq_of_toNat_eq
  rw [show (0x180000#64 : Word).toNat = 0x180000 from rfl]
  omega

/-- The load of the shell, in the state after `vmm_init`. -/
theorem archive_loadReady {s : SpaceState}
    (hquiet : QuietInvariant BootLayout.low.pml4Table archiveBoot ArchiveData s)
    (hfree : ∃ page, FreePage s.supply.pmm page)
    (hpool : s.supply.ptPoolUsed.toNat + 3 * 4096 ≤ 262144) {found : InitrdFile}
    (hfound : Describes archiveMemory 0x17FF88 0x1800F4 found shellFile) :
    LoadReady BootLayout.low.pml4Table 0x180000#64 0x10000000#64 0x10000000#64 s := by
  have hdata : ArchiveData 0x180000#64 := Or.inr ⟨by decide, by decide⟩
  have hsegment : OneSegment (placeBytes (fun _ ↦ 0#8) 0x180000 highImage) 0x180000
      0x10000000#64 0x10000000#64 := by
    constructor <;> decide +kernel
  refine ⟨hquiet.space.spaces, ⟨rfl, by decide, hquiet.own (by decide), ?_⟩,
    hquiet.untouched.taken _ hdata, hquiet.untouched.unused _ hdata _ (Or.inl rfl), rfl,
    Or.inl (by decide), by decide, hfree, hpool⟩
  refine hsegment.congr fun position hge hlt ↦ ?_
  obtain ⟨k, rfl⟩ := Nat.exists_eq_add_of_le hge
  have hk : k < highImage.length := Nat.add_lt_add_iff_left.mp hlt
  have hin : (BitVec.ofNat 64 (0x180000 + k) : Word).toNat = 0x180000 + k ∧
      ArchiveData (BitVec.ofNat 64 (0x180000 + k)) :=
    inModule ((show 0x17FF88 ≤ 0x180000 by decide).trans hge) (hlt.trans_le (by decide))
  have hbytes := hquiet.untouched.bytes _ hin.2
  have hsame := archive_handover.setupPaging_apply hin.2
  rw [hin.1] at hbytes hsame
  have hfile := hfound.data.getElem (show k < shellFile.data.length from hk)
  rw [shell_data hfound] at hfile
  simp only [archiveBoot, bootState, hsame] at hbytes
  rw [hbytes, placeBytes, if_pos ⟨hge, hlt⟩, Nat.add_sub_cancel_left,
    List.getD_eq_getElem _ _ hk]
  exact hfile

/-- The directories of a file of one segment come zeroed. -/
theorem everySegment_of_loadReady {pml4 page vaddr entry : Word} {s : SpaceState}
    (hready : LoadReady pml4 page vaddr entry s) (name : Word) (size : Word32) :
    EverySegment pml4 page 64#64 (s.memory, s.supply) (CleanSegment pml4) := by
  have hphoff := hready.file.readField (by decide) (by decide) hready.file.file.phoff
  intro i state phnum segment hloop hread hi hphdr
  exact (hready.fileApart name size (fun _ ↦ False.elim) _ 64#64 rfl hphoff i state phnum segment
    hloop hread hi hphdr).2

/-- A load that takes its tables from the pool keeps the tables direct. -/
theorem tablesDirect_of_poolTables {pml4 : Word} {pmm : Pmm} {s : SpaceState} {next : Memory}
    {supplyNext : TableSupply} (hspaces : Spaces (s.Root pml4) s.memory s.supply)
    (htables : TablesDirect pml4 (Direct pmm) s) (hpool : PoolTables pml4 s next) :
    TablesDirect pml4 (Direct pmm) ⟨next, supplyNext, s.processes, s.held⟩ := by
  intro root table hroot htable
  rcases hpool root table hroot htable with hold | hlow
  · exact htables root table hroot hold
  · obtain ⟨path, -, hreach⟩ := htable
    exact ⟨pageAligned_of_tableAt (hspaces.aligned root hroot) hreach, Or.inl hlow⟩

/-- The byte of the shell's image. -/
theorem readByte_highImage {pml4 : Word} {memory : Memory}
    (himage : ImageInPlace pml4 memory highImage) :
    readByte pml4 memory 0x10000000#64 = some 0#8 := by
  obtain ⟨hphnum, -, -, hsegment⟩ := fileSegment_highImage
  refine himage 0 (by rw [hphnum]; decide) _ hsegment 0 (by decide) ?_
  -- there is no later segment
  rintro ⟨k, hk, hik, -⟩
  rw [hphnum] at hk
  have hk : k < 1 := hk
  omega

/-- The shell is loaded from the archive: its entry point is returned, and its one byte is zero. -/
theorem boot_loads_image_shell : ∃ s files path next supplyNext,
    (quietSystem BootLayout.low.pml4Table archiveBoot ArchiveData).Run [] s ∧
      StringAt BootLayout.low.pml4Table s.memory path shellFile.name ∧
        elfLoadFromPath BootLayout.low.pml4Table files path (s.memory, s.supply) =
            some (some 0x10000000#64, next, supplyNext) ∧
          readByte BootLayout.low.pml4Table next 0x10000000#64 = some 0#8 := by
  obtain ⟨memory, supply, hrun, hclean, hfree, hpool⟩ := archive_boots
  have hquiet := archive_handover.quiet memoryRegion_archive hclean hrun
  have hend : (0x17FF88#64 : Word).toNat + (newcArchive [shellFile]).length =
      (0x1800F4#64 : Word).toNat := by
    rw [length_shellArchive]
    decide
  obtain ⟨files, hinit, hloads⟩ := boot_loads_image archive_handover memoryRegion_archive hclean
    isNewcArchive_shellFile holds_archiveMemory (by decide) hend [] _ hrun
  obtain ⟨table, htable, hfiles⟩ := archive_handover.initrdInit hquiet isNewcArchive_shellFile
    holds_archiveMemory (by decide) hend
  obtain rfl : files = table := Option.some.inj (hinit.symm.trans htable)
  have hfind : ([shellFile].take initrdMaxFiles).find? (fun file ↦ file.name = shellFile.name) =
      some shellFile := rfl
  obtain ⟨-, named, -, -, hnamed⟩ := exists_describes hfiles hfind
  have hname := archive_handover.stringAt hquiet hnamed
  obtain ⟨found, hfoundFile, hfound⟩ := archive_handover.foundFile hquiet hfiles hname hfind
  have hready := archive_loadReady hquiet hfree hpool hfound
  have hsize : ehdrSize ≤ found.size := by
    rw [BitVec.le_def, hfound.size]
    decide
  obtain ⟨next, supplyNext, -, hload, -, -, hpoolTables⟩ :=
    oneSegment_loads hready found.name hsize
  rw [← shell_data hfound] at hload
  have hpath : elfLoadFromPath BootLayout.low.pml4Table files named.name (memory, supply) =
      some (some 0x10000000#64, next, supplyNext) := by
    rw [elfLoadFromPath, hfoundFile, Option.bind_some]
    exact hload
  have hcleanLoad : ∀ other, foundFile BootLayout.low.pml4Table files named.name memory =
      some (some other) → EverySegment BootLayout.low.pml4Table other.data
        (filePhoff shellFile.data) (memory, supply) (CleanSegment BootLayout.low.pml4Table) := by
    intro other hother
    obtain rfl : found = other :=
      Option.some.inj (Option.some.inj (hfoundFile.symm.trans hother))
    rw [shell_data hfound, show filePhoff shellFile.data = 64#64 from fileSegment_highImage.2.2.1]
    exact everySegment_of_loadReady hready found.name found.size
  obtain ⟨-, hfile⟩ := hloads [] _ (TransitionSystem.Path.refl _) named.name shellFile.name hname
  obtain ⟨hloaded, -⟩ := hfile shellFile hfind properFile_highImage linkedApart_highImage
    hcleanLoad _ next supplyNext hpath
    (tablesDirect_of_poolTables hquiet.space.spaces hquiet.tables hpoolTables)
  exact ⟨_, files, named.name, next, supplyNext, hrun, hname, hpath,
    readByte_highImage hloaded.image⟩

end Colix.Boot
