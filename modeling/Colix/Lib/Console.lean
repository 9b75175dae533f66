import Colix.Arch.VgaPage
import Colix.Foundation.FairRuns
import Colix.Lib.Rendering

/-!
# The console and its devices

`kprintf` gives every character to the serial line and to the screen. `serial_putc` waits until the
transmitter has nothing left to send before it stores a byte, and `vga_putc` ends by telling the
display where the cursor is. The driver runs against a transmitter that sends what it holds when it
pleases and drops a byte that it has no room for.

`kprintf_console` is what holds in every interleaving of the two: the line has carried, or holds, a
prefix of the text with a carriage return after each newline, nothing lost, and when the driver is
through, the whole text, on the screen too. `kprintf_returns` is that it gets through when the
transmitter goes on sending.
-/

set_option autoImplicit false
set_option relaxedAutoImplicit false

namespace Colix.Lib

open Foundation Traced Arch

/-! ### The devices -/

/-- The transmitter of COM1: room for some bytes, those it holds, those it has sent, and the bits of
the line status register that are not about the transmitter. -/
structure Uart where
  room : ℕ
  held : List Byte
  sent : List Byte
  status : Byte

/-- The line status register, at `COM1 + 5`. Bit 5 says that nothing is held. -/
def Uart.lineStatus (u : Uart) : Byte :=
  if u.held = [] then u.status ||| 0x20#8 else u.status &&& ~~~0x20#8

/-- `outb(COM1, c)`. -/
def Uart.store (u : Uart) (c : Byte) : Uart :=
  if u.held.length < u.room then { u with held := u.held ++ [c] } else u

/-- `serial_ready`. -/
def serialReady (u : Uart) : Bool :=
  u.lineStatus &&& 0x20#8 != 0#8

/-- The registers of the display that `vga_update_cursor` stores to, behind the index at 0x3D4. -/
structure Crtc where
  index : Byte
  register : Byte → Byte

/-- `outb(port, value)` for the ports 0x3D4 and 0x3D5. -/
def Crtc.outb (d : Crtc) (port : BitVec 16) (value : Byte) : Crtc :=
  if port = 0x3D4#16 then { d with index := value }
  else if port = 0x3D5#16 then { d with register := Function.update d.register d.index value }
  else d

/-- Where the display shows the cursor. -/
def Crtc.location (d : Crtc) : ℕ :=
  (d.register 0x0E#8).toNat * 256 + (d.register 0x0F#8).toNat

/-- `vga_update_cursor`. -/
def vgaUpdateCursor (row col : ℕ) (d : Crtc) : Crtc :=
  let pos : BitVec 16 := BitVec.ofNat 16 (row * vgaCols + col)
  let d := d.outb 0x3D4#16 0x0F#8
  let d := d.outb 0x3D5#16 ((pos &&& 0xFF#16).setWidth 8)
  let d := d.outb 0x3D4#16 0x0E#8
  d.outb 0x3D5#16 ((pos >>> 8 &&& 0xFF#16).setWidth 8)

/-! ### The driver -/

/-- What the driver does next: wait for the transmitter, store a byte to it, or give a byte to
`vga_putc`. -/
inductive ConsoleStatement
  | awaitReady
  | store (c : Byte)
  | vgaPutc (c : Byte)
deriving DecidableEq

/-- What `serial_putc` does. -/
def serialPutcCode (c : Byte) : List ConsoleStatement :=
  [.awaitReady, .store c] ++
    if c = ascii '\n' then [.awaitReady, .store (ascii '\r')] else []

/-- What an event of `kprintf` does to the devices. -/
def Event.code : Event → List ConsoleStatement
  | .serialPutc c => serialPutcCode c
  | .vgaPutc c => [.vgaPutc c]
  | .format _ | .text _ | .buffer _ => []

/-- What a call does to the devices. -/
def consoleCode (events : List Event) : List ConsoleStatement :=
  events.flatMap Event.code

/-! ### The system -/

/-- The driver and the devices. -/
structure Console where
  code : List ConsoleStatement
  uart : Uart
  screen : Vga
  crtc : Crtc

/-- A statement of the driver, a byte sent, or a change of the line status that is not about the
transmitter. -/
inductive ConsoleEvent
  | driver
  | transmit
  | status (bits : Byte)
deriving DecidableEq

/-- A statement of the driver. A wait that finds the transmitter busy comes again. -/
def Console.drive (s : Console) : Option Console :=
  match s.code with
  | [] => none
  | .awaitReady :: code => some (if serialReady s.uart then { s with code := code } else s)
  | .store c :: code => some { s with code := code, uart := s.uart.store c }
  | .vgaPutc c :: code =>
    let screen := vgaPutc s.screen c
    some { s with
      code := code
      screen := screen
      crtc := vgaUpdateCursor screen.vgaRow screen.vgaCol s.crtc }

/-- A step. -/
def Console.next (s : Console) : ConsoleEvent → Option Console
  | .driver => s.drive
  | .transmit =>
    match s.uart.held with
    | [] => none
    | c :: held => some { s with uart := { s.uart with held := held, sent := s.uart.sent ++ [c] } }
  | .status bits => some { s with uart := { s.uart with status := bits } }

/-- The runs of the driver and the devices. -/
def consoleSystem (start : Console → Prop) : TransitionSystem Console ConsoleEvent :=
  TransitionSystem.ofFunction start Console.next

/-! ### What the line and the screen get -/

/-- The bytes that the code stores to the transmitter. -/
def storedBytes (code : List ConsoleStatement) : List Byte :=
  code.filterMap fun
    | .store c => some c
    | _ => none

/-- The bytes that the code gives to `vga_putc`. -/
def shownBytes (code : List ConsoleStatement) : List Byte :=
  code.filterMap fun
    | .vgaPutc c => some c
    | _ => none

/-- A text on the line has a carriage return after each newline. -/
def lineText (text : List Byte) : List Byte :=
  text.flatMap fun c ↦ if c = ascii '\n' then [c, ascii '\r'] else [c]

theorem lineText_cons (c : Byte) (text : List Byte) :
    lineText (c :: text) = (if c = ascii '\n' then [c, ascii '\r'] else [c]) ++ lineText text :=
  List.flatMap_cons

/-- Every store comes right after a wait. The flag says that the code itself does. -/
def Guarded : Bool → List ConsoleStatement → Prop
  | _, [] => True
  | _, .awaitReady :: code => Guarded true code
  | waited, .store _ :: code => waited ∧ Guarded false code
  | _, .vgaPutc _ :: code => Guarded false code

section Code

variable {code rest : List ConsoleStatement} {events : List Event}

theorem storedBytes_append (code rest : List ConsoleStatement) :
    storedBytes (code ++ rest) = storedBytes code ++ storedBytes rest :=
  List.filterMap_append

theorem shownBytes_append (code rest : List ConsoleStatement) :
    shownBytes (code ++ rest) = shownBytes code ++ shownBytes rest :=
  List.filterMap_append

/-- The code of a call stores what it prints on the line. -/
theorem storedBytes_consoleCode (events : List Event) :
    storedBytes (consoleCode events) = lineText (serialText events) := by
  induction events with
  | nil => rfl
  | cons event events ih =>
    rw [consoleCode, List.flatMap_cons, storedBytes_append, ← consoleCode, ih]
    cases event with
    | serialPutc c =>
      change storedBytes (serialPutcCode c) ++ _ = lineText (c :: serialText events)
      rw [lineText_cons, serialPutcCode]
      congr 1
      split_ifs <;> rfl
    | format | text | buffer | vgaPutc => rfl

/-- The code of a call shows what it prints on the screen. -/
theorem shownBytes_consoleCode (events : List Event) :
    shownBytes (consoleCode events) = vgaText events := by
  induction events with
  | nil => rfl
  | cons event events ih =>
    rw [consoleCode, List.flatMap_cons, shownBytes_append, ← consoleCode, ih]
    cases event with
    | serialPutc c =>
      change shownBytes (serialPutcCode c) ++ _ = vgaText events
      rw [serialPutcCode]
      split_ifs <;> rfl
    | format | text | buffer | vgaPutc => rfl

/-- Whether something waited does not matter to code that starts with a wait of its own. -/
theorem Guarded.weaken {waited : Bool} (hguarded : Guarded false code) : Guarded waited code := by
  cases code with
  | nil => trivial
  | cons statement code =>
    cases statement with
    | awaitReady | vgaPutc => exact hguarded
    | store => exact absurd hguarded.1 (by simp)

/-- The code of a call waits before every store. -/
theorem guarded_consoleCode (events : List Event) : Guarded false (consoleCode events) := by
  induction events with
  | nil => trivial
  | cons event events ih =>
    rw [consoleCode, List.flatMap_cons, ← consoleCode]
    cases event with
    | serialPutc c =>
      change Guarded false (serialPutcCode c ++ consoleCode events)
      rw [serialPutcCode]
      split_ifs
      · exact ⟨rfl, rfl, ih⟩
      · exact ⟨rfl, ih⟩
    | vgaPutc | format | text | buffer => exact ih

end Code

/-! ### Every interleaving -/

/-- The transmitter is ready when it holds nothing, whatever the other bits are. -/
theorem serialReady_iff (u : Uart) : serialReady u = true ↔ u.held = [] := by
  have hset : ∀ bits : Byte, ((bits ||| 0x20#8) &&& 0x20#8 != 0#8) = true := by decide
  have hclear : ∀ bits : Byte, ((bits &&& ~~~0x20#8) &&& 0x20#8 != 0#8) = false := by decide
  rw [serialReady, Uart.lineStatus]
  split_ifs with hheld
  · exact iff_of_true (hset _) hheld
  · rw [hclear]
    exact iff_of_false (by simp) hheld

/-- After `vga_update_cursor` the display shows the cursor at its place. -/
theorem location_vgaUpdateCursor {row col : ℕ} (hrow : row < 25) (hcol : col < 80) (d : Crtc) :
    (vgaUpdateCursor row col d).location = row * 80 + col := by
  have hsmall : row * 80 + col < 2 ^ 16 := by omega
  have hlow : ((BitVec.ofNat 16 (row * 80 + col) &&& 0xFF#16).setWidth 8).toNat =
      (row * 80 + col) % 256 := by
    rw [BitVec.toNat_setWidth, BitVec.toNat_and, BitVec.toNat_ofNat, Nat.mod_eq_of_lt hsmall,
      show (0xFF#16).toNat = 2 ^ 8 - 1 from rfl, Nat.and_two_pow_sub_one_eq_mod]
    omega
  have hhigh : (((BitVec.ofNat 16 (row * 80 + col) >>> 8) &&& 0xFF#16).setWidth 8).toNat =
      (row * 80 + col) / 256 := by
    rw [BitVec.toNat_setWidth, BitVec.toNat_and, BitVec.toNat_ushiftRight, BitVec.toNat_ofNat,
      Nat.mod_eq_of_lt hsmall, Nat.shiftRight_eq_div_pow, show (0xFF#16).toNat = 2 ^ 8 - 1 from rfl,
      Nat.and_two_pow_sub_one_eq_mod]
    omega
  change (((BitVec.ofNat 16 (row * 80 + col) >>> 8) &&& 0xFF#16).setWidth 8).toNat * 256 +
    ((BitVec.ofNat 16 (row * 80 + col) &&& 0xFF#16).setWidth 8).toNat = _
  rw [hlow, hhigh]
  omega

/-- The screen shows a page, and the display the cursor on it. -/
structure Displays (screen : Vga) (crtc : Crtc) (page : Page) : Prop where
  follows : Follows screen page
  location_eq : crtc.location = (page.row - page.top) * 80 + page.col

/-- A byte other than a tab. -/
theorem Displays.putc {screen : Vga} {crtc : Crtc} {page : Page}
    (hdisplays : Displays screen crtc page) {c : Byte} (htab : c ≠ 0x09#8) :
    Displays (vgaPutc screen c)
      (vgaUpdateCursor (vgaPutc screen c).vgaRow (vgaPutc screen c).vgaCol crtc) (page.put c) := by
  have hfollows := hdisplays.follows.putc htab
  have hcolumn := hfollows.col_eq
  have hrow := hfollows.row_eq
  refine ⟨hfollows, ?_⟩
  rw [location_vgaUpdateCursor hfollows.row_lt (hcolumn ▸ hfollows.col_lt), hcolumn]
  omega

/-- What every interleaving keeps: what the line has carried, what the transmitter holds and what
the code is still to store make up the whole, the transmitter is empty at a store, and the screen
shows the page up to what is still to be shown. -/
structure ConsoleInvariant (line : List Byte) (last : Page) (s : Console) : Prop where
  room_pos : 0 < s.uart.room
  guarded : Guarded (decide (s.uart.held = [])) s.code
  line_eq : s.uart.sent ++ s.uart.held ++ storedBytes s.code = line
  tabs : 0x09#8 ∉ shownBytes s.code
  displays : ∃ page, Displays s.screen s.crtc page ∧ page.write (shownBytes s.code) = last

section Invariant

variable {line : List Byte} {last : Page} {s next : Console} {code : List ConsoleStatement}

/-- Code that may store may store when nothing is held. -/
theorem Guarded.of_imp {waited ready : Bool} (hguarded : Guarded waited code)
    (himp : waited = true → ready = true) : Guarded ready code := by
  cases waited with
  | false => exact hguarded.weaken
  | true =>
    rw [himp rfl]
    exact hguarded

/-- A statement of the driver keeps the invariant. -/
theorem ConsoleInvariant.drive (hinv : ConsoleInvariant line last s)
    (hdrive : s.drive = some next) : ConsoleInvariant line last next := by
  obtain ⟨hroom, hguarded, hline, htabs, page, hdisplays, hpage⟩ := hinv
  cases s with
  | mk code uart screen crtc =>
  cases code with
  | nil => cases hdrive
  | cons statement code =>
    cases statement with
    | awaitReady =>
      have hnext := Option.some.inj hdrive
      split_ifs at hnext with hready
      · subst hnext
        have hheld := (serialReady_iff uart).mp hready
        refine ⟨hroom, ?_, hline, htabs, page, hdisplays, hpage⟩
        exact Guarded.of_imp (show Guarded true code from hguarded) fun _ ↦ by
          rw [hheld]
          rfl
      · subst hnext
        exact ⟨hroom, hguarded, hline, htabs, page, hdisplays, hpage⟩
    | store c =>
      obtain rfl := Option.some.inj hdrive
      obtain ⟨hheld, hrest⟩ := hguarded
      replace hheld : uart.held = [] := of_decide_eq_true hheld
      have hfits : ([] : List Byte).length < uart.room := hroom
      have hstore : uart.store c = { uart with held := [c] } := by
        rw [Uart.store, hheld, if_pos hfits]
        rfl
      refine ⟨?_, hrest.weaken, ?_, htabs, page, hdisplays, hpage⟩
      · change 0 < (uart.store c).room
        rw [hstore]
        exact hroom
      · rw [← hline]
        change (uart.store c).sent ++ (uart.store c).held ++ storedBytes code =
          uart.sent ++ uart.held ++ (c :: storedBytes code)
        rw [hstore, hheld]
        simp
    | vgaPutc c =>
      obtain rfl := Option.some.inj hdrive
      change 0x09#8 ∉ c :: shownBytes code at htabs
      rw [List.mem_cons, not_or] at htabs
      refine ⟨hroom, Guarded.weaken hguarded, hline, htabs.2, page.put c, ?_, hpage⟩
      exact hdisplays.putc (Ne.symm htabs.1)

/-- Every step keeps the invariant. -/
theorem ConsoleInvariant.step (hinv : ConsoleInvariant line last s) {event : ConsoleEvent}
    (hstep : s.next event = some next) : ConsoleInvariant line last next := by
  cases event with
  | driver => exact hinv.drive hstep
  | transmit =>
    obtain ⟨hroom, hguarded, hline, htabs, page, hdisplays, hpage⟩ := hinv
    rw [Console.next] at hstep
    cases hheld : s.uart.held with
    | nil => simp [hheld] at hstep
    | cons c held =>
      simp only [hheld, Option.some.injEq] at hstep
      subst hstep
      refine ⟨hroom, hguarded.of_imp ?_, ?_, htabs, page, hdisplays, hpage⟩
      · simp [hheld]
      · rw [← hline, hheld]
        simp
  | status bits =>
    obtain rfl := Option.some.inj hstep
    exact ⟨hinv.room_pos, hinv.guarded, hinv.line_eq, hinv.tabs, hinv.displays⟩

/-- The bytes that have left the driver begin the line. -/
theorem ConsoleInvariant.line_prefix (hinv : ConsoleInvariant line last s) :
    s.uart.sent ++ s.uart.held <+: line :=
  ⟨storedBytes s.code, hinv.line_eq⟩

/-- When the driver is through, the line is complete, and so is the screen. -/
theorem ConsoleInvariant.of_done (hinv : ConsoleInvariant line last s) (hdone : s.code = []) :
    s.uart.sent ++ s.uart.held = line ∧ Displays s.screen s.crtc last := by
  obtain ⟨-, -, hline, -, page, hdisplays, hpage⟩ := hinv
  rw [hdone] at hline hpage
  refine ⟨by rw [← hline]; exact (List.append_nil _).symm, ?_⟩
  rw [← hpage]
  exact hdisplays

end Invariant

/-! ### The driver gets through -/

/-- The two parts that a call of `kprintf` needs steps of. -/
inductive ConsolePart
  | driver
  | transmitter

/-- A part has something to do. -/
def ConsolePart.Enabled : ConsolePart → Console → Prop
  | .driver, s => s.code ≠ []
  | .transmitter, s => s.uart.held ≠ []

/-- A step of the part. -/
def ConsolePart.Occurs : ConsolePart → ConsoleEvent → Prop
  | .driver, event => event = .driver
  | .transmitter, event => event = .transmit

/-- The part that a state waits for. -/
def Console.helper (s : Console) : ConsolePart :=
  match s.code, s.uart.held with
  | .awaitReady :: _, _ :: _ => .transmitter
  | _, _ => .driver

/-- Twice the statements left, and the bytes held. -/
def Console.rank (s : Console) : ℕ :=
  2 * s.code.length + s.uart.held.length

/-- A store adds one byte to what the transmitter holds, or none. -/
theorem length_held_store (u : Uart) (c : Byte) :
    (u.store c).held.length ≤ u.held.length + 1 := by
  rw [Uart.store]
  split_ifs
  · exact Nat.le_of_eq List.length_append
  · exact Nat.le_succ _

/-- A statement of the driver lowers the rank, but for a wait that finds the transmitter busy. -/
theorem Console.rank_drive {s next : Console} (hdrive : s.drive = some next) :
    next.rank < s.rank ∨ next = s ∧ s.helper = .transmitter := by
  cases s with
  | mk code uart screen crtc =>
  cases code with
  | nil => cases hdrive
  | cons statement code =>
    have hlength : (statement :: code).length = code.length + 1 := List.length_cons
    cases statement with
    | awaitReady =>
      have hnext := Option.some.inj hdrive
      split_ifs at hnext with hready
      · subst hnext
        refine Or.inl ?_
        simp only [Console.rank, hlength]
        omega
      · refine Or.inr ⟨hnext.symm, ?_⟩
        replace hready := (serialReady_iff uart).not.mp hready
        obtain ⟨c, held, hheld⟩ := List.exists_cons_of_ne_nil hready
        simp only [Console.helper, hheld]
    | store c =>
      obtain rfl := Option.some.inj hdrive
      have hheld := length_held_store uart c
      refine Or.inl ?_
      simp only [Console.rank, hlength]
      omega
    | vgaPutc c =>
      obtain rfl := Option.some.inj hdrive
      refine Or.inl ?_
      simp only [Console.rank, hlength]
      omega

/-- The driver waits for the transmitter only while that holds something. -/
theorem console_helped (start : Console → Prop) :
    (consoleSystem start).Helped (fun _ ↦ True) (fun s ↦ s.code = []) ConsolePart.Enabled
      ConsolePart.Occurs Console.rank Console.helper := by
  refine ⟨fun _ _ _ _ _ ↦ trivial, fun s _ hnot ↦ ?_, fun s event next _ _ hstep ↦ ?_⟩
  · cases hhelper : s.helper with
    | driver => exact hnot
    | transmitter =>
      intro hheld
      rw [Console.helper, hheld] at hhelper
      cases hcode : s.code <;> simp [hcode] at hhelper
  · replace hstep : s.next event = some next := hstep
    cases event with
    | driver =>
      rcases Console.rank_drive hstep with hless | ⟨rfl, hhelper⟩
      · exact Or.inl hless
      · refine Or.inr ⟨rfl, rfl, ?_⟩
        rw [hhelper]
        exact fun hoccurs ↦ ConsoleEvent.noConfusion hoccurs
    | transmit =>
      rw [Console.next] at hstep
      cases hheld : s.uart.held with
      | nil => simp [hheld] at hstep
      | cons c held =>
        simp only [hheld, Option.some.injEq] at hstep
        subst hstep
        refine Or.inl ?_
        simp only [Console.rank, hheld, List.length_cons]
        omega
    | status bits =>
      obtain rfl := Option.some.inj hstep
      refine Or.inr ⟨rfl, rfl, ?_⟩
      cases s.helper <;> exact fun hoccurs ↦ ConsoleEvent.noConfusion hoccurs

/-! ### A call of `kprintf` -/

section Call

variable {fmt : Memory} {text : List Byte} {pieces : List Piece} {arguments : Arguments}
  {args : VaList} {uart : Uart} {screen : Vga} {crtc : Crtc} {page : Page}

/-- The console at a call of `kprintf`: it is to make the call's stores, from any state of the
devices. -/
def ConsoleCall (fuel : ℕ) (buf fmt : Memory) (args : VaList) (uart : Uart) (screen : Vga)
    (crtc : Crtc) (s : Console) : Prop :=
  s = ⟨consoleCode (kprintf fuel buf fmt args).accesses, uart, screen, crtc⟩

/-- A call of `kprintf` starts with the invariant, for the text that its pieces make. -/
theorem exists_consoleInvariant (hfmt : CString fmt 0 text) (hpieces : Parses text pieces)
    (hargs : arguments.Held args) (buf : Memory) (htabs : 0x09#8 ∉ render arguments 0 pieces)
    (hroom : 0 < uart.room) (hdisplays : Displays screen crtc page) :
    ∃ bound, ∀ fuel ≥ bound, ∀ s, ConsoleCall fuel buf fmt args uart screen crtc s →
      ConsoleInvariant (uart.sent ++ uart.held ++ lineText (render arguments 0 pieces))
        (page.write (render arguments 0 pieces)) s := by
  obtain ⟨bound, hbound⟩ := hpieces.renders_kprintf hfmt hargs buf
  refine ⟨bound, fun fuel hfuel s hs ↦ ?_⟩
  have hserial := (hbound fuel hfuel).serial
  have hvga := (hbound fuel hfuel).vga
  obtain rfl : s = _ := hs
  refine ⟨hroom, (guarded_consoleCode _).weaken, ?_, ?_, page, hdisplays, ?_⟩
  · rw [storedBytes_consoleCode, hserial]
  · rw [shownBytes_consoleCode, hvga]
    exact htabs
  · rw [shownBytes_consoleCode, hvga]

/-- In every interleaving of a call of `kprintf` with the transmitter, no byte is lost: what was
sent and is held begins the line with the text of the call, and when the driver is through, it is
that line, and the screen shows the text and the cursor behind it. Assumes: the UART has room for a
byte and the screen is in order when the call begins. -/
theorem kprintf_console (hfmt : CString fmt 0 text) (hpieces : Parses text pieces)
    (hargs : arguments.Held args) (buf : Memory) (htabs : 0x09#8 ∉ render arguments 0 pieces)
    (hroom : 0 < uart.room) (hdisplays : Displays screen crtc page) :
    ∃ bound, ∀ fuel ≥ bound, ∀ events s,
      (consoleSystem (ConsoleCall fuel buf fmt args uart screen crtc)).Run events s →
        s.uart.sent ++ s.uart.held <+:
            uart.sent ++ uart.held ++ lineText (render arguments 0 pieces) ∧
          (s.code = [] →
            s.uart.sent ++ s.uart.held =
                uart.sent ++ uart.held ++ lineText (render arguments 0 pieces) ∧
              Displays s.screen s.crtc (page.write (render arguments 0 pieces))) := by
  obtain ⟨bound, hbound⟩ :=
    exists_consoleInvariant hfmt hpieces hargs buf htabs hroom hdisplays
  refine ⟨bound, fun fuel hfuel events s hrun ↦ ?_⟩
  have hinv := hrun.invariant (hbound fuel hfuel) fun _ _ _ hstate hstep ↦
    ConsoleInvariant.step hstate hstep
  exact ⟨hinv.line_prefix, hinv.of_done⟩

/-- In every execution that is fair to the driver and to the transmitter, a call of `kprintf` gets
through, with its text on the line and on the screen, from where `kprintf_console` begins. -/
theorem kprintf_returns (hfmt : CString fmt 0 text) (hpieces : Parses text pieces)
    (hargs : arguments.Held args) (buf : Memory) (htabs : 0x09#8 ∉ render arguments 0 pieces)
    (hroom : 0 < uart.room) (hdisplays : Displays screen crtc page) :
    ∃ bound, ∀ fuel ≥ bound,
      ∀ execution : (consoleSystem (ConsoleCall fuel buf fmt args uart screen crtc)).Execution,
        ConsoleCall fuel buf fmt args uart screen crtc (execution.state 0) →
        (∀ part : ConsolePart, execution.Fair part.Enabled part.Occurs) →
          ∃ time, (execution.state time).code = [] ∧
            (execution.state time).uart.sent ++ (execution.state time).uart.held =
                uart.sent ++ uart.held ++ lineText (render arguments 0 pieces) ∧
              Displays (execution.state time).screen (execution.state time).crtc
                (page.write (render arguments 0 pieces)) := by
  obtain ⟨bound, hbound⟩ :=
    exists_consoleInvariant hfmt hpieces hargs buf htabs hroom hdisplays
  refine ⟨bound, fun fuel hfuel execution hcall hfair ↦ ?_⟩
  obtain ⟨time, hdone⟩ := execution.reaches (console_helped _) hfair trivial
  obtain ⟨events, hpath⟩ := execution.exists_path time
  have hrun : (consoleSystem (ConsoleCall fuel buf fmt args uart screen crtc)).Run events
      (execution.state time) :=
    ⟨_, hcall, hpath⟩
  have hinv := hrun.invariant (hbound fuel hfuel) fun _ _ _ hstate hstep ↦
    ConsoleInvariant.step hstate hstep
  exact ⟨time, hdone, hinv.of_done hdone⟩

end Call

/-! ### A fair execution -/

/-- The transmitter sends what it holds before the driver goes on. -/
def Console.turn (s : Console) : ConsoleEvent :=
  if s.uart.held ≠ [] then .transmit else if s.code ≠ [] then .driver else .status 0#8

/-- The next state of that execution. -/
def Console.follow (s : Console) : Console :=
  (s.next s.turn).getD s

/-- Something happens on every turn, and the rank falls until nothing is left to do. -/
theorem Console.follow_spec (s : Console) :
    s.next s.turn = some s.follow ∧ s.follow.rank ≤ s.rank - 1 := by
  rw [Console.follow, Console.turn]
  split_ifs with hheld hcode
  · obtain ⟨c, held, hcons⟩ := List.exists_cons_of_ne_nil hheld
    simp only [Console.next, hcons, Option.getD_some, Console.rank, List.length_cons, true_and]
    omega
  · rw [ne_eq, not_not] at hheld
    obtain ⟨next, hnext⟩ : ∃ next, s.next .driver = some next := by
      obtain ⟨statement, code, hcons⟩ := List.exists_cons_of_ne_nil hcode
      cases statement <;> simp [Console.next, Console.drive, hcons]
    rw [hnext]
    refine ⟨rfl, ?_⟩
    rcases Console.rank_drive hnext with hless | ⟨-, hhelper⟩
    · exact Nat.le_sub_one_of_lt hless
    · rw [Console.helper, hheld] at hhelper
      cases hcons : s.code <;> simp [hcons] at hhelper
  · rw [ne_eq, not_not] at hheld hcode
    simp only [Console.next, Option.getD_some, Console.rank, hheld, hcode, List.length_nil,
      true_and]
    omega

/-- The execution from a state in which the two take turns. -/
def turns (start : Console → Prop) (s : Console) : (consoleSystem start).Execution where
  state time := Console.follow^[time] s
  event time := (Console.follow^[time] s).turn
  step time := by
    rw [Function.iterate_succ_apply']
    exact (Console.follow_spec _).1

/-- It is fair to both. -/
theorem turns_fair (start : Console → Prop) (s : Console) (part : ConsolePart) :
    (turns start s).Fair part.Enabled part.Occurs := by
  have hrank : ∀ time, ((turns start s).state time).rank ≤ s.rank - time := by
    intro time
    induction time with
    | zero => exact Nat.le_refl _
    | succ time ih =>
      have hnext := (Console.follow_spec ((turns start s).state time)).2
      rw [show (turns start s).state (time + 1) = ((turns start s).state time).follow from
        Function.iterate_succ_apply' ..]
      omega
  intro first henabled
  have hnone := hrank (first + s.rank)
  have hsome := henabled (first + s.rank) (Nat.le_add_right _ _)
  rw [Console.rank] at hnone
  cases part with
  | driver =>
    have hpositive := List.length_pos_of_ne_nil hsome
    omega
  | transmitter =>
    have hpositive := List.length_pos_of_ne_nil hsome
    omega

/-! ### A line with a number -/

/-- The slots of `kprintf("%d\n", -7)`. -/
def numberSlots : VaList :=
  ⟨fun _ ↦ -7#64, fun _ ↦ none⟩

/-- The transmitter holds a byte when the call starts. -/
def busyUart : Uart :=
  ⟨16, [ascii '>'], [], 0#8⟩

/-- The console after `vga_init`, whatever was in the video memory and in the display. -/
theorem displays_vgaInit (cells : ℕ → BitVec 16) (d : Crtc) :
    Displays (vgaInit (Vga.bss cells)) (vgaUpdateCursor 0 0 d) Page.blank :=
  ⟨follows_vgaInit cells, location_vgaUpdateCursor (by decide) (by decide) d⟩

theorem held_numberSlots : (⟨fun _ ↦ -7#64, fun _ ↦ none⟩ : Arguments).Held numberSlots :=
  ⟨fun _ ↦ rfl, fun _ _ ↦ rfl, fun _ _ hsome ↦ absurd hsome (by simp)⟩

theorem parses_number : Parses (constant "%d\n") [.signed, .plain (ascii '\n')] :=
  Parses.conversion (c := ascii 'd') rfl (.plain (by decide) .nil)

/-- The line carries a carriage return after the newline. -/
theorem kprintf_console_number : ∃ bound, ∀ fuel ≥ bound, ∀ events s,
    (consoleSystem (ConsoleCall fuel (fun _ ↦ 0#8) (literal "%d\n") numberSlots busyUart
      (vgaInit (Vga.bss fun _ ↦ 0#16)) (vgaUpdateCursor 0 0 ⟨0#8, fun _ ↦ 0#8⟩))).Run events s →
        s.uart.sent ++ s.uart.held <+: constant ">-7\n\r" ∧
          (s.code = [] → s.uart.sent ++ s.uart.held = constant ">-7\n\r" ∧
            Displays s.screen s.crtc (Page.blank.write (constant "-7\n"))) :=
  kprintf_console (cString_literal (by decide)) parses_number held_numberSlots _ (by decide)
    (by decide) (displays_vgaInit _ _)

/-- It does in the execution in which the two take turns. -/
theorem kprintf_returns_number : ∃ bound, ∀ fuel ≥ bound,
    ∃ execution : (consoleSystem (ConsoleCall fuel (fun _ ↦ 0#8) (literal "%d\n") numberSlots
        busyUart (vgaInit (Vga.bss fun _ ↦ 0#16))
          (vgaUpdateCursor 0 0 ⟨0#8, fun _ ↦ 0#8⟩))).Execution,
      ∃ time, (execution.state time).code = [] ∧
        (execution.state time).uart.sent ++ (execution.state time).uart.held =
          constant ">-7\n\r" ∧
          Displays (execution.state time).screen (execution.state time).crtc
            (Page.blank.write (constant "-7\n")) := by
  obtain ⟨bound, hbound⟩ := kprintf_returns (cString_literal (by decide)) parses_number
    held_numberSlots (fun _ ↦ 0#8) (by decide) (show 0 < busyUart.room by decide)
    (displays_vgaInit (fun _ ↦ 0#16) ⟨0#8, fun _ ↦ 0#8⟩)
  refine ⟨bound, fun fuel hfuel ↦ ⟨turns _ ⟨consoleCode (kprintf fuel (fun _ ↦ 0#8) (literal "%d\n")
    numberSlots).accesses, busyUart, vgaInit (Vga.bss fun _ ↦ 0#16),
      vgaUpdateCursor 0 0 ⟨0#8, fun _ ↦ 0#8⟩⟩, ?_⟩⟩
  exact hbound fuel hfuel _ rfl (turns_fair _ _)

end Colix.Lib
