import Mathlib.Data.List.Induction
import Colix.Foundation.CountedLoop
import Colix.Types

/-!
# The text console

`kernel/arch/x86_64/vga.c`: 25 rows of 80 cells, a cursor, and a scroll that copies the rows up in
place. The cells are memory without bounds, and `written` keeps the index of every cell written, so
that a store out of the buffer is seen. The cursor is an `int` that never goes below zero; its
report to the hardware is left out.

A tab moves the cursor to the next multiple of eight and does not wrap, so the cursor stays on the
screen exactly as long as every tab comes before column 72 (`onScreen_iff_tabs`).
-/

set_option autoImplicit false
set_option relaxedAutoImplicit false

namespace Colix.Arch

open Foundation

/-! ### The source -/

/-- `VGA_COLS`. -/
abbrev vgaCols : ℕ := 80

/-- `VGA_ROWS`. -/
abbrev vgaRows : ℕ := 25

/-- `VGA_ENTRY`. -/
def vgaEntry (c attr : Byte) : BitVec 16 :=
  attr.setWidth 16 <<< 8 ||| c.setWidth 16

/-- `VGA_COLOR`. -/
def vgaColor (fg bg : Byte) : Byte :=
  bg <<< 4 ||| fg

/-- The cells at `VGA_ADDR`, the indices written so far, and the static variables. -/
structure Vga where
  cells : ℕ → BitVec 16
  written : List ℕ
  vgaRow : ℕ
  vgaCol : ℕ
  vgaAttr : Byte

/-- The state the program starts in, whatever the screen shows. -/
def Vga.bss (cells : ℕ → BitVec 16) : Vga where
  cells := cells
  written := []
  vgaRow := 0
  vgaCol := 0
  vgaAttr := 0#8

/-- `VGA_ADDR[i] = cell`. -/
def Vga.setCell (v : Vga) (i : ℕ) (cell : BitVec 16) : Vga :=
  { v with cells := Function.update v.cells i cell, written := i :: v.written }

/-- The loop `for (i = 0; i < count; i++) VGA_ADDR[start + i] = cell`. -/
def fillCells (v : Vga) (start count : ℕ) (cell : BitVec 16) : Vga :=
  (List.range count).foldl (fun v i ↦ v.setCell (start + i) cell) v

/-- `vga_clear`. -/
def vgaClear (v : Vga) : Vga :=
  let blank := vgaEntry 0x20#8 v.vgaAttr
  let v := fillCells v 0 (vgaCols * vgaRows) blank
  { v with vgaRow := 0, vgaCol := 0 }

/-- `vga_init`. -/
def vgaInit (v : Vga) : Vga :=
  vgaClear { v with vgaAttr := vgaColor 7#8 0#8 }

/-- The copy of one row to the row above it, in `vga_scroll`. -/
def copyRowUp (v : Vga) (r : ℕ) : Vga :=
  (List.range vgaCols).foldl
    (fun v c ↦ v.setCell ((r - 1) * vgaCols + c) (v.cells (r * vgaCols + c))) v

/-- The copy of the rows from 1 on to the rows above them. -/
def copyRowsUp (v : Vga) (rows : ℕ) : Vga :=
  (List.range rows).foldl (fun v r ↦ copyRowUp v (r + 1)) v

/-- `vga_scroll`. -/
def vgaScroll (v : Vga) : Vga :=
  let v := copyRowsUp v (vgaRows - 1)
  let blank := vgaEntry 0x20#8 v.vgaAttr
  let v := fillCells v ((vgaRows - 1) * vgaCols) vgaCols blank
  { v with vgaRow := vgaRows - 1 }

/-- What a byte does in `vga_putc`, before the scroll. -/
def vgaType (v : Vga) (c : Byte) : Vga :=
  if c = 0x0A#8 then { v with vgaCol := 0, vgaRow := v.vgaRow + 1 }
  else if c = 0x0D#8 then { v with vgaCol := 0 }
  else if c = 0x09#8 then { v with vgaCol := (v.vgaCol + 8) / 8 * 8 }
  else if c = 0x08#8 then
    if 0 < v.vgaCol then { v with vgaCol := v.vgaCol - 1 } else v
  else
    let v := v.setCell (v.vgaRow * vgaCols + v.vgaCol) (vgaEntry c v.vgaAttr)
    let v := { v with vgaCol := v.vgaCol + 1 }
    if vgaCols ≤ v.vgaCol then { v with vgaCol := 0, vgaRow := v.vgaRow + 1 } else v

/-- `vga_putc`. -/
def vgaPutc (v : Vga) (c : Byte) : Vga :=
  let v := vgaType v c
  if vgaRows ≤ v.vgaRow then vgaScroll v else v

/-- `vga_putc` on each byte in turn. -/
def vgaWrite (v : Vga) (bytes : List Byte) : Vga :=
  bytes.foldl vgaPutc v

/-! ### What the loops write -/

/-- The cells of a range changed, and nothing else of the state but the record of writes. -/
structure RangeWritten (v : Vga) (start count : ℕ) (value : ℕ → BitVec 16) (next : Vga) :
    Prop where
  cells_eq : ∀ i, next.cells i = if start ≤ i ∧ i < start + count then value i else v.cells i
  written_cases : ∀ i ∈ next.written, i ∈ v.written ∨ start ≤ i ∧ i < start + count
  row_eq : next.vgaRow = v.vgaRow
  col_eq : next.vgaCol = v.vgaCol
  attr_eq : next.vgaAttr = v.vgaAttr

section Loops

variable {v next last : Vga} {start count : ℕ} {value : ℕ → BitVec 16}

theorem RangeWritten.refl (v : Vga) (start : ℕ) (value : ℕ → BitVec 16) :
    RangeWritten v start 0 value v :=
  ⟨fun i ↦ (if_neg (by omega)).symm, fun _ ↦ Or.inl, rfl, rfl, rfl⟩

/-- One more cell. -/
theorem RangeWritten.setCell (hwritten : RangeWritten v start count value next) {cell : BitVec 16}
    (hcell : cell = value (start + count)) :
    RangeWritten v start (count + 1) value (next.setCell (start + count) cell) := by
  refine ⟨fun i ↦ ?_, fun i hi ↦ ?_, hwritten.row_eq, hwritten.col_eq, hwritten.attr_eq⟩
  · change Function.update next.cells (start + count) cell i = _
    by_cases heq : i = start + count
    · rw [heq, Function.update_self, if_pos (by omega), hcell]
    · rw [Function.update_of_ne heq, hwritten.cells_eq]
      split_ifs <;> first | rfl | omega
  · rcases List.mem_cons.mp hi with rfl | hi
    · omega
    · exact (hwritten.written_cases i hi).imp_right fun _ ↦ by omega

/-- Ranges that follow each other. -/
theorem RangeWritten.append {more : ℕ} (hfirst : RangeWritten v start count value next)
    (hsecond : RangeWritten next (start + count) more value last) :
    RangeWritten v start (count + more) value last := by
  refine ⟨fun i ↦ ?_, fun i hi ↦ ?_, hsecond.row_eq.trans hfirst.row_eq,
    hsecond.col_eq.trans hfirst.col_eq, hsecond.attr_eq.trans hfirst.attr_eq⟩
  · rw [hsecond.cells_eq, hfirst.cells_eq]
    split_ifs <;> first | rfl | omega
  · rcases hsecond.written_cases i hi with hi | hi
    · exact (hfirst.written_cases i hi).imp_right fun _ ↦ by omega
    · omega

/-- A loop that writes one value to the cells of a range. -/
theorem rangeWritten_fillCells (v : Vga) (start count : ℕ) (cell : BitVec 16) :
    RangeWritten v start count (fun _ ↦ cell) (fillCells v start count cell) :=
  foldl_range_rule (motive := fun i next ↦ RangeWritten v start i (fun _ ↦ cell) next)
    (RangeWritten.refl v start _) fun _ _ _ hwritten ↦ hwritten.setCell rfl

/-- Copying a row up reads the row below, which the copy does not write. -/
theorem rangeWritten_copyRowUp (v : Vga) (r : ℕ) :
    RangeWritten v (r * 80) 80 (fun i ↦ v.cells (i + 80)) (copyRowUp v (r + 1)) := by
  refine foldl_range_rule (motive := fun c next ↦
    RangeWritten v (r * 80) c (fun i ↦ v.cells (i + 80)) next)
    (RangeWritten.refl v _ _) fun c hc next hwritten ↦ ?_
  have hbelow : (r + 1) * 80 + c = r * 80 + c + 80 := by omega
  refine hwritten.setCell ?_
  change next.cells ((r + 1) * 80 + c) = _
  rw [hbelow, hwritten.cells_eq, if_neg (by omega)]

/-- The first loop of `vga_scroll` moves everything up by a row. -/
theorem rangeWritten_copyRowsUp (v : Vga) (rows : ℕ) :
    RangeWritten v 0 (rows * 80) (fun i ↦ v.cells (i + 80)) (copyRowsUp v rows) := by
  refine foldl_range_rule (motive := fun r next ↦
    RangeWritten v 0 (r * 80) (fun i ↦ v.cells (i + 80)) next)
    (by simpa using RangeWritten.refl v 0 _) fun r hr next hwritten ↦ ?_
  have hrow := rangeWritten_copyRowUp next r
  have hsame : RangeWritten next (0 + r * 80) 80 (fun i ↦ v.cells (i + 80))
      (copyRowUp next (r + 1)) := by
    refine ⟨fun i ↦ ?_, ?_, hrow.row_eq, hrow.col_eq, hrow.attr_eq⟩
    · rw [hrow.cells_eq, Nat.zero_add]
      split_ifs with hin
      · rw [hwritten.cells_eq, if_neg (by omega)]
      · rfl
    · rw [Nat.zero_add]
      exact hrow.written_cases
  rw [Nat.succ_mul]
  exact hwritten.append hsame

end Loops

/-- `vga_clear` makes every cell blank and puts the cursor in the corner. -/
theorem vgaClear_spec (v : Vga) :
    (∀ i < 2000, (vgaClear v).cells i = vgaEntry 0x20#8 v.vgaAttr) ∧
      (∀ i ∈ (vgaClear v).written, i ∈ v.written ∨ i < 2000) ∧
        (vgaClear v).vgaRow = 0 ∧ (vgaClear v).vgaCol = 0 ∧ (vgaClear v).vgaAttr = v.vgaAttr := by
  have hfill := rangeWritten_fillCells v 0 (vgaCols * vgaRows) (vgaEntry 0x20#8 v.vgaAttr)
  have hcount : vgaCols * vgaRows = 2000 := rfl
  simp only [vgaClear]
  refine ⟨fun i hi ↦ ?_, fun i hi ↦ ?_, trivial, trivial, hfill.attr_eq⟩
  · exact (hfill.cells_eq i).trans (if_pos (by omega))
  · exact (hfill.written_cases i hi).imp_right fun hin ↦ by omega

/-- `vga_scroll` moves everything up by a row and makes the last row blank. -/
theorem vgaScroll_spec (v : Vga) :
    (∀ i < 2000, (vgaScroll v).cells i =
        if i < 1920 then v.cells (i + 80) else vgaEntry 0x20#8 v.vgaAttr) ∧
      (∀ i ∈ (vgaScroll v).written, i ∈ v.written ∨ i < 2000) ∧
        (vgaScroll v).vgaRow = 24 ∧ (vgaScroll v).vgaCol = v.vgaCol ∧
          (vgaScroll v).vgaAttr = v.vgaAttr := by
  have hcopy := rangeWritten_copyRowsUp v (vgaRows - 1)
  have hfill := rangeWritten_fillCells (copyRowsUp v (vgaRows - 1)) ((vgaRows - 1) * vgaCols)
    vgaCols (vgaEntry 0x20#8 (copyRowsUp v (vgaRows - 1)).vgaAttr)
  have hcopied : (vgaRows - 1) * 80 = 1920 := rfl
  have hlast : (vgaRows - 1) * vgaCols = 1920 := rfl
  have hcols : vgaCols = 80 := rfl
  simp only [vgaScroll]
  refine ⟨fun i hi ↦ ?_, fun i hi ↦ ?_, rfl, hfill.col_eq.trans hcopy.col_eq,
    hfill.attr_eq.trans hcopy.attr_eq⟩
  · refine (hfill.cells_eq i).trans ?_
    rw [hcopy.cells_eq, hcopy.attr_eq]
    split_ifs <;> first | rfl | omega
  · rcases hfill.written_cases i hi with hi | hi
    · exact (hcopy.written_cases i hi).imp_right fun _ ↦ by omega
    · omega

/-- A byte that is none of the four control characters of `vga_putc`. -/
def Printable (c : Byte) : Prop :=
  c ≠ 0x0A#8 ∧ c ≠ 0x0D#8 ∧ c ≠ 0x09#8 ∧ c ≠ 0x08#8

/-- All that a byte can do before the scroll. -/
theorem vgaType_cases (v : Vga) (c : Byte) :
    (c = 0x0A#8 ∧ vgaType v c = { v with vgaCol := 0, vgaRow := v.vgaRow + 1 }) ∨
      (c = 0x0D#8 ∧ vgaType v c = { v with vgaCol := 0 }) ∨
      (c = 0x09#8 ∧ vgaType v c = { v with vgaCol := (v.vgaCol + 8) / 8 * 8 }) ∨
      (c = 0x08#8 ∧ vgaType v c = { v with vgaCol := v.vgaCol - 1 }) ∨
      (Printable c ∧ 80 ≤ v.vgaCol + 1 ∧ vgaType v c =
        { v.setCell (v.vgaRow * 80 + v.vgaCol) (vgaEntry c v.vgaAttr) with
          vgaCol := 0, vgaRow := v.vgaRow + 1 }) ∨
      (Printable c ∧ v.vgaCol + 1 < 80 ∧ vgaType v c =
        { v.setCell (v.vgaRow * 80 + v.vgaCol) (vgaEntry c v.vgaAttr) with
          vgaCol := v.vgaCol + 1 }) := by
  rw [vgaType]
  by_cases hnewline : c = 0x0A#8
  · exact Or.inl ⟨hnewline, if_pos hnewline⟩
  right
  rw [if_neg hnewline]
  by_cases hreturn : c = 0x0D#8
  · exact Or.inl ⟨hreturn, if_pos hreturn⟩
  right
  rw [if_neg hreturn]
  by_cases htab : c = 0x09#8
  · exact Or.inl ⟨htab, if_pos htab⟩
  right
  rw [if_neg htab]
  by_cases hback : c = 0x08#8
  · left
    refine ⟨hback, ?_⟩
    rw [if_pos hback]
    split_ifs with hpositive
    · rfl
    · rw [Nat.le_zero.mp (Nat.not_lt.mp hpositive)]
      cases v
      simp_all
  right
  rw [if_neg hback]
  have hprintable : Printable c := ⟨hnewline, hreturn, htab, hback⟩
  by_cases hwrap : 80 ≤ v.vgaCol + 1
  · exact Or.inl ⟨hprintable, hwrap, if_pos hwrap⟩
  · exact Or.inr ⟨hprintable, Nat.lt_of_not_le hwrap, if_neg hwrap⟩

/-! ### The cursor stays on the screen -/

/-- The cursor is on the screen, and nothing was written outside it. -/
structure OnScreen (v : Vga) : Prop where
  row_lt : v.vgaRow < 25
  col_lt : v.vgaCol < 80
  written_lt : ∀ i ∈ v.written, i < 2000

/-- A tab does not move the cursor past the last column. -/
def TabFits (v : Vga) (c : Byte) : Prop :=
  c = 0x09#8 → v.vgaCol < 72

variable {v : Vga}

/-- `vga_scroll` brings the cursor back to the last row. -/
theorem OnScreen.scroll (hcol : v.vgaCol < 80) (hwritten : ∀ i ∈ v.written, i < 2000) :
    OnScreen (vgaScroll v) := by
  obtain ⟨-, hcells, hrow, hcolumn, -⟩ := vgaScroll_spec v
  refine ⟨by omega, by omega, fun i hi ↦ ?_⟩
  rcases hcells i hi with hold | hlt
  · exact hwritten i hold
  · exact hlt

/-- A byte leaves the cursor in a column of the screen, and writes to the screen, unless it is a tab
past column 71. -/
theorem vgaType_onScreen (hon : OnScreen v) {c : Byte} (htab : TabFits v c) :
    (vgaType v c).vgaRow ≤ 25 ∧ (vgaType v c).vgaCol < 80 ∧
      ∀ i ∈ (vgaType v c).written, i < 2000 := by
  obtain ⟨hrow, hcol, hwritten⟩ := hon
  rcases vgaType_cases v c with ⟨-, htyped⟩ | ⟨-, htyped⟩ | ⟨hc, htyped⟩ | ⟨-, htyped⟩ |
    ⟨-, hwrap, htyped⟩ | ⟨-, hstay, htyped⟩ <;> rw [htyped] <;> dsimp only [Vga.setCell]
  · exact ⟨by omega, by omega, hwritten⟩
  · exact ⟨by omega, by omega, hwritten⟩
  · have hfits := htab hc
    exact ⟨by omega, by omega, hwritten⟩
  · exact ⟨by omega, by omega, hwritten⟩
  · exact ⟨by omega, by omega, List.forall_mem_cons.mpr ⟨by omega, hwritten⟩⟩
  · exact ⟨by omega, by omega, List.forall_mem_cons.mpr ⟨by omega, hwritten⟩⟩

/-- A tab moves the cursor and does nothing else. -/
theorem vgaPutc_tab (hrow : v.vgaRow < 25) :
    vgaPutc v 0x09#8 = { v with vgaCol := (v.vgaCol + 8) / 8 * 8 } := by
  have htyped : vgaType v 0x09#8 = { v with vgaCol := (v.vgaCol + 8) / 8 * 8 } := rfl
  rw [vgaPutc, htyped]
  exact if_neg (Nat.not_le_of_lt hrow)

/-- Each byte keeps the cursor on the screen exactly when it is no tab past column 71. -/
theorem onScreen_vgaPutc_iff (hon : OnScreen v) (c : Byte) :
    OnScreen (vgaPutc v c) ↔ TabFits v c := by
  constructor
  · rintro hafter rfl
    have hcol := hafter.col_lt
    rw [vgaPutc_tab hon.row_lt] at hcol
    dsimp only at hcol
    omega
  · intro htab
    obtain ⟨hrow, hcol, hwritten⟩ := vgaType_onScreen hon htab
    simp only [vgaPutc]
    split_ifs with hbelow
    · exact OnScreen.scroll hcol hwritten
    · exact ⟨Nat.lt_of_not_le hbelow, hcol, hwritten⟩

/-- `vga_init` leaves the cursor on the screen. -/
theorem onScreen_vgaInit (cells : ℕ → BitVec 16) : OnScreen (vgaInit (Vga.bss cells)) := by
  obtain ⟨-, hwritten, hrow, hcol, -⟩ :=
    vgaClear_spec { Vga.bss cells with vgaAttr := vgaColor 7#8 0#8 }
  refine ⟨?_, ?_, fun i hi ↦ ?_⟩
  · exact (Nat.le_of_eq hrow).trans_lt (by decide)
  · exact (Nat.le_of_eq hcol).trans_lt (by decide)
  · rcases hwritten i hi with hnone | hlt
    · exact absurd hnone List.not_mem_nil
    · exact hlt

theorem vgaWrite_append (v : Vga) (bytes : List Byte) (c : Byte) :
    vgaWrite v (bytes ++ [c]) = vgaPutc (vgaWrite v bytes) c := by
  rw [vgaWrite, List.foldl_append]
  rfl

/-- After each byte of a string the cursor is on the screen and no cell outside it was written,
exactly when each tab comes before column 72. -/
theorem onScreen_iff_tabs (cells : ℕ → BitVec 16) (bytes : List Byte) :
    (∀ before, before <+: bytes → OnScreen (vgaWrite (vgaInit (Vga.bss cells)) before)) ↔
      ∀ before c, before ++ [c] <+: bytes →
        TabFits (vgaWrite (vgaInit (Vga.bss cells)) before) c := by
  constructor
  · intro hall before c hbegins
    have hbefore := hall before ((List.prefix_append before [c]).trans hbegins)
    refine (onScreen_vgaPutc_iff hbefore c).mp ?_
    rw [← vgaWrite_append]
    exact hall (before ++ [c]) hbegins
  · intro htabs before
    induction before using List.reverseRecOn with
    | nil => exact fun _ ↦ onScreen_vgaInit cells
    | append_singleton before c ih =>
      intro hbegins
      have hbefore := ih ((List.prefix_append before [c]).trans hbegins)
      rw [vgaWrite_append]
      exact (onScreen_vgaPutc_iff hbefore c).mpr (htabs before c hbegins)

/-- Tabs add up. -/
theorem vgaCol_tabs (hrow : v.vgaRow < 25) (hcol : v.vgaCol = 0) (count : ℕ) :
    (vgaWrite v (List.replicate count 0x09#8)).vgaRow < 25 ∧
      (vgaWrite v (List.replicate count 0x09#8)).vgaCol = 8 * count := by
  induction count with
  | zero => exact ⟨hrow, hcol⟩
  | succ count ih =>
    rw [List.replicate_succ', vgaWrite_append, vgaPutc_tab ih.1]
    refine ⟨ih.1, ?_⟩
    dsimp only
    omega

/-- Ten tabs put the cursor in column 80. -/
theorem tabs_leave_screen : ¬ ∀ cells bytes before, before <+: bytes →
    OnScreen (vgaWrite (vgaInit (Vga.bss cells)) before) := by
  intro hall
  have hstart := onScreen_vgaInit fun _ ↦ 0#16
  have hzero : (vgaInit (Vga.bss fun _ ↦ 0#16)).vgaCol = 0 :=
    (vgaClear_spec { Vga.bss (fun _ ↦ 0#16) with vgaAttr := vgaColor 7#8 0#8 }).2.2.2.1
  have hlast := hall (fun _ ↦ 0#16) (List.replicate 10 0x09#8) _ List.prefix_rfl
  have hcol := hlast.col_lt
  rw [(vgaCol_tabs hstart.row_lt hzero 10).2] at hcol
  omega

end Colix.Arch
