import Colix.Arch.Vga

/-!
# The console is a window on a page

What the console is for: its output on a page of 80 columns with no last row, of which the screen
shows the 25 rows that end at the cursor's. `vgaWrite_shows` is the simulation for strings without
tabs: writing a byte keeps the screen a window on the page (`Shows.putc`), also when the screen is
full and scrolls.
-/

set_option autoImplicit false
set_option relaxedAutoImplicit false

namespace Colix.Arch

/-! ### The page -/

/-- An unbounded page of 80-column rows, with a cursor. -/
structure Page where
  cell : ℕ → ℕ → Byte
  row : ℕ
  col : ℕ

/-- The page before anything is written. -/
def Page.blank : Page where
  cell := fun _ _ ↦ 0x20#8
  row := 0
  col := 0

/-- A byte overwrites the cell at the cursor. -/
def Page.setCell (p : Page) (c : Byte) : Page :=
  { p with cell := Function.update p.cell p.row (Function.update (p.cell p.row) p.col c) }

/-- The cursor goes to the start of the next row. -/
def Page.nextRow (p : Page) : Page :=
  { p with row := p.row + 1, col := 0 }

/-- A byte on the page: newline, carriage return, backspace, or a byte that is shown. -/
def Page.put (p : Page) (c : Byte) : Page :=
  if c = 0x0A#8 then p.nextRow
  else if c = 0x0D#8 then { p with col := 0 }
  else if c = 0x08#8 then { p with col := p.col - 1 }
  else if p.col = 79 then (p.setCell c).nextRow
  else { p.setCell c with col := p.col + 1 }

/-- Bytes on the page, one after another. -/
def Page.write (p : Page) (bytes : List Byte) : Page :=
  bytes.foldl Page.put p

/-- The first row that the screen shows. -/
def Page.top (p : Page) : ℕ :=
  max p.row 24 - 24

/-- The screen shows the 25 rows of the page that end at the cursor's row, or at row 24. -/
structure Shows (v : Vga) (p : Page) : Prop where
  cells_eq : ∀ r < 25, ∀ c < 80,
    v.cells (r * 80 + c) = vgaEntry (p.cell (p.top + r) c) (vgaColor 7#8 0#8)
  row_eq : p.top + v.vgaRow = p.row
  col_eq : v.vgaCol = p.col

/-- What writing keeps: the screen shows the page, and nothing is written below the cursor. -/
structure Follows (v : Vga) (p : Page) : Prop extends Shows v p where
  attr_eq : v.vgaAttr = vgaColor 7#8 0#8
  row_lt : v.vgaRow < 25
  col_lt : p.col < 80
  below : ∀ r, p.row < r → ∀ c, p.cell r c = 0x20#8

/-! ### The simulation -/

variable {v : Vga} {p : Page}

/-- Moving the cursor within its row. -/
theorem Follows.moveCol (hfollows : Follows v p) {col : ℕ} (hcol : col < 80) :
    Follows { v with vgaCol := col } { p with col := col } where
  cells_eq := hfollows.cells_eq
  row_eq := hfollows.row_eq
  col_eq := rfl
  attr_eq := hfollows.attr_eq
  row_lt := hfollows.row_lt
  col_lt := hcol
  below := hfollows.below

/-- Writing the cell at the cursor. -/
theorem Follows.setCell (hfollows : Follows v p) (c : Byte) :
    Follows (v.setCell (v.vgaRow * 80 + v.vgaCol) (vgaEntry c v.vgaAttr)) (p.setCell c) := by
  have hrow := hfollows.row_eq
  have hcolumn := hfollows.col_eq
  have hcol := hfollows.col_lt
  refine ⟨⟨fun r hr column hcolumnLt ↦ ?_, hrow, hcolumn⟩, hfollows.attr_eq, hfollows.row_lt, hcol,
    fun r hr column ↦ ?_⟩
  · change Function.update v.cells _ _ _ =
      vgaEntry (Function.update p.cell p.row _ (p.top + r) column) _
    by_cases hself : r = v.vgaRow
    · subst hself
      rw [hrow, Function.update_self]
      by_cases hat : column = p.col
      · rw [hat, hcolumn, Function.update_self, Function.update_self, hfollows.attr_eq]
      · rw [Function.update_of_ne (by omega), Function.update_of_ne hat,
          hfollows.cells_eq v.vgaRow hr column hcolumnLt, hrow]
    · rw [Function.update_of_ne (by omega), Function.update_of_ne (by omega),
        hfollows.cells_eq r hr column hcolumnLt]
  · change p.row < r at hr
    change Function.update p.cell p.row _ r column = _
    rw [Function.update_of_ne (Nat.ne_of_gt hr)]
    exact hfollows.below r hr column

/-- Going to the next row, with a scroll from the last one. -/
theorem Follows.nextRow (hfollows : Follows v p) {next : Vga}
    (hnext : next = { v with vgaCol := 0, vgaRow := v.vgaRow + 1 }) :
    Follows (if 25 ≤ next.vgaRow then vgaScroll next else next) p.nextRow := by
  have hrow := hfollows.row_eq
  have hlt := hfollows.row_lt
  have hnextRow : next.vgaRow = v.vgaRow + 1 := by rw [hnext]
  have hcells : next.cells = v.cells := by rw [hnext]
  have hattr : next.vgaAttr = vgaColor 7#8 0#8 := by rw [hnext, hfollows.attr_eq]
  have hstart : p.nextRow.col < 80 := Nat.zero_lt_succ 79
  have hbelow : ∀ r, p.row + 1 < r → ∀ c, p.cell r c = 0x20#8 :=
    fun r hr ↦ hfollows.below r (by omega)
  rw [Page.top] at hrow
  split_ifs with hfull
  · -- the cursor was in the last row: the window moves down by one
    obtain ⟨hscrolled, -, hlast, hcol, hsame⟩ := vgaScroll_spec next
    have htop : p.nextRow.top = p.top + 1 := by
      rw [Page.top, Page.top, Page.nextRow]
      dsimp only
      omega
    refine ⟨⟨fun r hr c hc ↦ ?_, ?_, ?_⟩, hsame.trans hattr, by omega, hstart, hbelow⟩
    · rw [hscrolled _ (by omega), htop, hcells, hattr]
      change _ = vgaEntry (p.cell (p.top + 1 + r) c) _
      split_ifs with hmoved
      · rw [show r * 80 + c + 80 = (r + 1) * 80 + c by omega,
          hfollows.cells_eq (r + 1) (by omega) c hc, show p.top + 1 + r = p.top + (r + 1) by omega]
      · rw [hfollows.below (p.top + 1 + r) (by rw [Page.top]; omega)]
    · rw [htop, hlast, Page.top]
      change _ = p.row + 1
      omega
    · rw [hcol, hnext]
      rfl
  · have htop : p.nextRow.top = p.top := by
      rw [Page.top, Page.top, Page.nextRow]
      dsimp only
      omega
    refine ⟨⟨fun r hr c hc ↦ ?_, ?_, by rw [hnext]; rfl⟩, hattr, by omega, hstart, hbelow⟩
    · rw [htop, hcells]
      exact hfollows.cells_eq r hr c hc
    · rw [htop, hnextRow, Page.top]
      change _ = p.row + 1
      omega

/-- A byte that leaves the cursor in its row does not scroll. -/
theorem vgaPutc_of_row_lt {c : Byte} (hrow : (vgaType v c).vgaRow < 25) :
    vgaPutc v c = vgaType v c :=
  if_neg (Nat.not_le_of_lt hrow)

/-- A byte other than a tab, on the screen and on the page. -/
theorem Follows.putc (hfollows : Follows v p) {c : Byte} (htab : c ≠ 0x09#8) :
    Follows (vgaPutc v c) (p.put c) := by
  have hrow := hfollows.row_lt
  have hcol := hfollows.col_lt
  have hcolumn := hfollows.col_eq
  rw [Page.put]
  rcases vgaType_cases v c with ⟨hc, htyped⟩ | ⟨hc, htyped⟩ | ⟨hc, -⟩ | ⟨hc, htyped⟩ |
    ⟨⟨hnewline, hreturn, -, hback⟩, hwrap, htyped⟩ | ⟨⟨hnewline, hreturn, -, hback⟩, hstay, htyped⟩
  · rw [if_pos hc, vgaPutc]
    exact hfollows.nextRow htyped
  · rw [if_neg (by rw [hc]; decide), if_pos hc, vgaPutc_of_row_lt (by rw [htyped]; exact hrow),
      htyped]
    exact hfollows.moveCol (by decide)
  · exact absurd hc htab
  · rw [if_neg (by rw [hc]; decide), if_neg (by rw [hc]; decide), if_pos hc,
      vgaPutc_of_row_lt (by rw [htyped]; exact hrow), htyped, hcolumn]
    exact hfollows.moveCol (by omega)
  · rw [if_neg hnewline, if_neg hreturn, if_neg hback, if_pos (by omega), vgaPutc]
    exact (hfollows.setCell c).nextRow htyped
  · rw [if_neg hnewline, if_neg hreturn, if_neg hback, if_neg (by omega),
      vgaPutc_of_row_lt (by rw [htyped]; exact hrow), htyped, ← hcolumn]
    exact (hfollows.setCell c).moveCol hstay

/-- After `vga_init` the screen shows the blank page. -/
theorem follows_vgaInit (cells : ℕ → BitVec 16) : Follows (vgaInit (Vga.bss cells)) Page.blank := by
  obtain ⟨hcells, -, hrow, hcol, hattr⟩ :=
    vgaClear_spec { Vga.bss cells with vgaAttr := vgaColor 7#8 0#8 }
  refine ⟨⟨fun r hr c hc ↦ ?_, ?_, hcol⟩, hattr, ?_, by decide, fun _ _ _ ↦ rfl⟩
  · rw [vgaInit, hcells _ (by omega)]
    rfl
  · exact (congrArg (Page.blank.top + ·) hrow).trans rfl
  · exact (Nat.le_of_eq hrow).trans_lt (by decide)

/-- Along a string without tabs the screen shows the page it is written on. -/
theorem vgaWrite_shows (cells : ℕ → BitVec 16) {bytes : List Byte} (htabs : 0x09#8 ∉ bytes) :
    Shows (vgaWrite (vgaInit (Vga.bss cells)) bytes) (Page.blank.write bytes) := by
  have hfollows : Follows (vgaWrite (vgaInit (Vga.bss cells)) bytes) (Page.blank.write bytes) := by
    induction bytes using List.reverseRecOn with
    | nil => exact follows_vgaInit cells
    | append_singleton bytes c ih =>
      rw [List.mem_append, List.mem_singleton, not_or] at htabs
      rw [vgaWrite_append, Page.write, List.foldl_append]
      exact (ih htabs.1).putc (Ne.symm htabs.2)
  exact hfollows.toShows

/-- A string that fills the screen, goes back over its last line and scrolls. -/
theorem vgaWrite_shows_scrolled :
    Shows (vgaWrite (vgaInit (Vga.bss fun _ ↦ 0#16))
        (List.replicate 25 0x0A#8 ++ [0x61#8, 0x62#8, 0x08#8, 0x63#8, 0x0D#8, 0x64#8]))
      (Page.blank.write
        (List.replicate 25 0x0A#8 ++ [0x61#8, 0x62#8, 0x08#8, 0x63#8, 0x0D#8, 0x64#8])) :=
  vgaWrite_shows _ (by decide)

end Colix.Arch
