import Colix.Foundation.Traced
import Colix.Types

/-!
# Printing

`kernel/lib/serial.c`: `kprintf` with the numbers and strings that it prints. What a call does is
kept as its events, in order: the bytes read from the format and from string arguments, the places
of `buf` used by `print_uint`, and the characters given to `serial_putc` and `vga_putc`. A string is
the bytes from a pointer on. The loops take fuel, and a loop that has not ended gives no value.
-/

set_option autoImplicit false
set_option relaxedAutoImplicit false

namespace Colix.Lib

open Foundation Traced

/-! ### The source -/

/-- What a call reads, uses and prints. -/
inductive Event
  | format (place : ℕ)
  | text (place : ℕ)
  | buffer (index : ℕ)
  | serialPutc (c : Byte)
  | vgaPutc (c : Byte)
deriving DecidableEq

/-- A computation with its events. -/
abbrev Printing (Value : Type) :=
  Traced Event Value

/-- A character constant. -/
def ascii (c : Char) : Byte :=
  BitVec.ofNat 8 c.toNat

/-- The bytes of a string constant from its first byte on. -/
def literal (text : String) : Memory := fun place ↦
  (text.toList.map ascii).getD place 0#8

/-- The slots of a `va_list`, each read as the type that the conversion asks for: the word of an
integer or a pointer, or the bytes that a `const char *` leads to, none for NULL. -/
structure VaList where
  word : ℕ → Word
  string : ℕ → Option Memory

/-- The characters `digits[]` of `print_uint`. -/
def digitChar (digit : ℕ) : Byte :=
  literal "0123456789abcdef" digit

/-- `kputc`: `serial_putc(c); vga_putc(c);`. -/
def kputc (c : Byte) : Printing Unit :=
  access [.serialPutc c, .vgaPutc c] ()

/-- The loop over the digits of `n`, which stand in `buf` from the lowest on. -/
def digitLoop (base : Word) : ℕ → Word → ℕ → Memory → Printing (ℕ × Memory)
  | 0, _, _, _ => ofOption none
  | fuel + 1, n, i, buf =>
    if n = 0#64 then pure (i, buf)
    else do
      access [.buffer i] ()
      digitLoop base fuel (n / base) (i + 1) (Function.update buf i (digitChar (n % base).toNat))

/-- The padding: `for (int w = i; w < width; w++)`. -/
def padLoop (width : ℤ) (pad : Byte) : ℕ → ℤ → Printing Unit
  | 0, _ => ofOption none
  | fuel + 1, w =>
    if w < width then do
      kputc pad
      padLoop width pad fuel (w + 1)
    else pure ()

/-- `while (i--) { serial_putc(buf[i]); vga_putc(buf[i]); }`. -/
def printLoop (buf : Memory) : ℕ → Printing Unit
  | 0 => pure ()
  | i + 1 => do
    access [.buffer i, .serialPutc (buf i), .buffer i, .vgaPutc (buf i)] ()
    printLoop buf i

/-- The digits of `n` in `buf`, and their number. -/
def writeDigits (buf : Memory) (n : Word) (base : BitVec 32) : Printing (ℕ × Memory) :=
  if n = 0#64 then access [.buffer 0] (1, Function.update buf 0 (ascii '0'))
  else digitLoop (base.signExtend 64) (n.toNat + 1) n 0 buf

/-- `print_uint`, with what `buf` holds at the start. -/
def printUint (buf : Memory) (n : Word) (base : BitVec 32) (width : ℤ) (pad : Byte) :
    Printing Unit := do
  let (i, buf) ← writeDigits buf n base
  padLoop width pad (width.toNat + 1) i
  printLoop buf i

/-- `print_int`. The sign of `INT64_MIN` wraps. -/
def printInt (buf : Memory) (n : Word) : Printing Unit :=
  if n.slt 0#64 then do
    kputc (ascii '-')
    printUint buf (-n) 10#32 0 (ascii ' ')
  else printUint buf n 10#32 0 (ascii ' ')

/-- The loop of `kputs`. -/
def kputsLoop (s : Memory) : ℕ → ℕ → Printing Unit
  | 0, _ => ofOption none
  | fuel + 1, place => do
    let c ← access [.text place] (s place)
    if c = 0#8 then pure ()
    else do
      kputc c
      kputsLoop s fuel (place + 1)

/-- `kputs`. -/
def kputs (fuel : ℕ) (s : Option Memory) : Printing Unit :=
  kputsLoop (s.getD (literal "(null)")) fuel 0

/-- `*fmt`. -/
def readFormat (fmt : Memory) (place : ℕ) : Printing Byte :=
  access [.format place] (fmt place)

/-- `c >= '0' && c <= '9'`, which no byte from 0x80 on meets, signed or not. -/
def IsDigit (c : Byte) : Prop :=
  ascii '0' ≤ c ∧ c ≤ ascii '9'

instance (c : Byte) : Decidable (IsDigit c) :=
  inferInstanceAs (Decidable (_ ∧ _))

/-- `if (*fmt == '0') { pad = '0'; fmt++; }`, from the pad `' '`. -/
def zeroFlag (fmt : Memory) (place : ℕ) : Printing (ℕ × Byte) := do
  let c ← readFormat fmt place
  if c = ascii '0' then pure (place + 1, ascii '0') else pure (place, ascii ' ')

/-- The loop over the digits of the width, an `int` that wraps. -/
def widthLoop (fmt : Memory) : ℕ → ℕ → BitVec 32 → Printing (ℕ × BitVec 32)
  | 0, _, _ => ofOption none
  | fuel + 1, place, width => do
    let c ← readFormat fmt place
    if IsDigit c then
      widthLoop fmt fuel (place + 1) (width * 10#32 + (c - ascii '0').setWidth 32)
    else pure (place, width)

/-- `if (*fmt == 'l') { fmt++; if (*fmt == 'l') fmt++; }`. -/
def longFlag (fmt : Memory) (place : ℕ) : Printing ℕ := do
  let c ← readFormat fmt place
  if c = ascii 'l' then do
    let c ← readFormat fmt (place + 1)
    if c = ascii 'l' then pure (place + 2) else pure (place + 1)
  else pure place

/-- The flags of a conversion: the place behind them, the width and the pad. -/
def scanFlags (fmt : Memory) (fuel place : ℕ) : Printing (ℕ × BitVec 32 × Byte) := do
  let (place, pad) ← zeroFlag fmt place
  let (place, width) ← widthLoop fmt fuel place 0#32
  let place ← longFlag fmt place
  pure (place, width, pad)

/-- The `switch` on the conversion, which returns the next slot of the arguments. -/
def convert (fuel : ℕ) (buf : Memory) (args : VaList) (slot : ℕ) (width : ℤ) (pad c : Byte) :
    Printing ℕ :=
  if c = ascii 'd' then do
    printInt buf (args.word slot)
    pure (slot + 1)
  else if c = ascii 'u' then do
    printUint buf (args.word slot) 10#32 width pad
    pure (slot + 1)
  else if c = ascii 'x' then do
    printUint buf (args.word slot) 16#32 width pad
    pure (slot + 1)
  else if c = ascii 'p' then do
    kputs fuel (some (literal "0x"))
    printUint buf (args.word slot) 16#32 16 (ascii '0')
    pure (slot + 1)
  else if c = ascii 's' then do
    kputs fuel (args.string slot)
    pure (slot + 1)
  else if c = ascii 'c' then do
    kputc ((args.word slot).setWidth 8)
    pure (slot + 1)
  else if c = ascii '%' then do
    kputc (ascii '%')
    pure slot
  else do
    kputc (ascii '%')
    kputc c
    pure slot

/-- The scan of the format in `kprintf`, from a place on and with the next slot. -/
def kprintfScan (fmt buf : Memory) (args : VaList) : ℕ → ℕ → ℕ → Printing Unit
  | 0, _, _ => ofOption none
  | fuel + 1, place, slot => do
    let c ← readFormat fmt place
    if c = 0#8 then pure ()
    else if c ≠ ascii '%' then do
      kputc c
      kprintfScan fmt buf args fuel (place + 1) slot
    else do
      let (place, width, pad) ← scanFlags fmt fuel (place + 1)
      let c ← readFormat fmt place
      let slot ← convert fuel buf args slot width.toInt pad c
      kprintfScan fmt buf args fuel (place + 1) slot

/-- `kprintf`. -/
def kprintf (fuel : ℕ) (buf fmt : Memory) (args : VaList) : Printing Unit :=
  kprintfScan fmt buf args fuel 0 0

end Colix.Lib
