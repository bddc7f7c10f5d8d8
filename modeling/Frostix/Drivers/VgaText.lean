import Frostix.Kernel
import Frostix.Lib.Loop
import Frostix.Lib.Transition
import Frostix.Libc

/-!
The text device (`vga_text.c`). An access outside the 2000 cells has no result. The
abstract screen keeps a byte and an attribute for each cell; a cell of the device is meant
to hold the byte in its low and the attribute in its high half. -/
namespace Frostix.Drivers

open Machine32 Libc

/-- The cells at `VGA_MEMORY`. -/
abbrev Cells := Fin 2000 → BitVec 16

/-- `vga_text_device_t`. -/
structure VgaTextDevice where
  cursorX : Nat
  cursorY : Nat
  color : Byte
  buffer : Cells
  initialized : Bool

/-- `(u16)c | ((u16)color << 8)`: `char` is signed, so `c` is extended with its sign. -/
def vgaMakeEntry (c color : Byte) : BitVec 16 := c.signExtend 16 ||| (color.setWidth 16 <<< 8)

def vgaIndex (x y : Nat) : Nat := y * 80 + x

def vgaTextMakeColor (fg bg : Byte) : Byte := fg ||| bg <<< 4

def readCell (buf : Cells) (i : Nat) : Option (BitVec 16) := if h : i < 2000 then some (buf ⟨i, h⟩) else none

def writeCell (buf : Cells) (i : Nat) (entry : BitVec 16) : Option Cells :=
  if h : i < 2000 then some (Function.update buf ⟨i, h⟩ entry) else none

/-- The copying loops of `vga_text_scroll_internal`. -/
def copyLines (buf : Cells) : Option Cells :=
  (List.range 24).foldlM (fun buf y => (List.range 80).foldlM (fun buf x => do
    let entry ← readCell buf (vgaIndex x (y + 1))
    writeCell buf (vgaIndex x y) entry) buf) buf

def scrollInternal (color : Byte) (buf : Cells) : Option Cells := do
  let buf ← copyLines buf
  (List.range 80).foldlM (fun buf x => writeCell buf (vgaIndex x 24) (vgaMakeEntry (ascii ' ') color)) buf

def vgaTextClear (dev : VgaTextDevice) : Option (KernelStatus × VgaTextDevice) :=
  if !dev.initialized then some (.error, dev)
  else do
    let buffer ← (List.range 2000).foldlM
      (fun buf i => writeCell buf i (vgaMakeEntry (ascii ' ') dev.color)) dev.buffer
    some (.ok, { dev with buffer, cursorX := 0, cursorY := 0 })

def vgaTextInit (dev : VgaTextDevice) : Option (KernelStatus × VgaTextDevice) :=
  vgaTextClear { dev with
    cursorX := 0
    cursorY := 0
    color := vgaTextMakeColor 7#8 0#8
    initialized := true }

def vgaTextSetColor (dev : VgaTextDevice) (color : Byte) : KernelStatus × VgaTextDevice :=
  if !dev.initialized then (.error, dev) else (.ok, { dev with color })

def vgaTextSetCursor (dev : VgaTextDevice) (x y : Nat) : KernelStatus × VgaTextDevice :=
  if !dev.initialized then (.error, dev)
  else if 80 ≤ x ∨ 25 ≤ y then (.invalidParam, dev)
  else (.ok, { dev with cursorX := x, cursorY := y })

/-- `if (v < 0) v = 0; if (v >= limit) v = limit - 1`. -/
def clampTo (limit : Int) (v : Int) : Int :=
  let v := if v < 0 then 0 else v
  if limit ≤ v then limit - 1 else v

def vgaTextMoveCursor (dev : VgaTextDevice) (dx dy : Int) : KernelStatus × VgaTextDevice :=
  if !dev.initialized then (.error, dev)
  else vgaTextSetCursor dev (clampTo 80 (dev.cursorX + dx)).toNat (clampTo 25 (dev.cursorY + dy)).toNat

def vgaTextPutcharAt (dev : VgaTextDevice) (c color : Byte) (x y : Nat) :
    Option (KernelStatus × VgaTextDevice) :=
  if !dev.initialized then some (.error, dev)
  else if 80 ≤ x ∨ 25 ≤ y then some (.invalidParam, dev)
  else do
    let buffer ← writeCell dev.buffer (vgaIndex x y) (vgaMakeEntry c color)
    some (.ok, { dev with buffer })

def vgaTextNewline (dev : VgaTextDevice) : Option (KernelStatus × VgaTextDevice) :=
  if !dev.initialized then some (.error, dev)
  else
    let y := (dev.cursorY + 1) % 2 ^ 16
    if 25 ≤ y then do
      let buffer ← scrollInternal dev.color dev.buffer
      some (.ok, { dev with cursorX := 0, cursorY := 24, buffer })
    else some (.ok, { dev with cursorX := 0, cursorY := y })

/-- `vga_text_putchar` on a character that is shown. -/
def putGlyph (dev : VgaTextDevice) (c : Byte) : Option (KernelStatus × VgaTextDevice) := do
  let (_, dev) ← vgaTextPutcharAt dev c dev.color dev.cursorX dev.cursorY
  let x := (dev.cursorX + 1) % 2 ^ 16
  let dev := { dev with cursorX := x }
  if 80 ≤ x then vgaTextNewline dev else some (.ok, dev)

def putSpaces : Nat → VgaTextDevice → Option (KernelStatus × VgaTextDevice)
  | 0, dev => some (.ok, dev)
  | n + 1, dev => do
      let (status, dev) ← putGlyph dev (ascii ' ')
      if status ≠ .ok then some (.error, dev) else putSpaces n dev

def vgaTextPutchar (dev : VgaTextDevice) (c : Byte) : Option (KernelStatus × VgaTextDevice) :=
  if !dev.initialized then some (.error, dev)
  else if c = ascii '\n' then vgaTextNewline dev
  else if c = ascii '\r' then some (.ok, { dev with cursorX := 0 })
  else if c = ascii '\t' then putSpaces (4 - dev.cursorX % 4) dev
  else if c = 8#8 then
    if 0 < dev.cursorX then do
      let dev := { dev with cursorX := dev.cursorX - 1 }
      let (_, dev) ← vgaTextPutcharAt dev (ascii ' ') dev.color dev.cursorX dev.cursorY
      some (.ok, dev)
    else some (.ok, dev)
  else putGlyph dev c

/-- The loop of `vga_text_write`. -/
def writeAll : List Byte → VgaTextDevice → Option (KernelStatus × VgaTextDevice)
  | [], dev => some (.ok, dev)
  | c :: data, dev => do
      let (status, dev) ← vgaTextPutchar dev c
      if status ≠ .ok then some (.error, dev) else writeAll data dev

def vgaTextWrite (dev : VgaTextDevice) (data : List Byte) : Option (KernelStatus × VgaTextDevice) :=
  if !dev.initialized then some (.invalidParam, dev) else writeAll data dev

def vgaTextScrollUp (dev : VgaTextDevice) (lines : Nat) : Option (KernelStatus × VgaTextDevice) :=
  if !dev.initialized then some (.error, dev)
  else do
    let buffer ← (List.range lines).foldlM (fun buf _ => scrollInternal dev.color buf) dev.buffer
    some (.ok, { dev with buffer })

inductive VgaOp where
  | init
  | putchar (c : Byte)
  | write (data : List Byte)
  | newline
  | setColor (color : Byte)
  | setCursor (x y : Nat)
  | moveCursor (dx dy : Int)
  | putcharAt (c color : Byte) (x y : Nat)
  | scrollUp (lines : Nat)
  | clear

def VgaOp.exec (dev : VgaTextDevice) : VgaOp → Option (KernelStatus × VgaTextDevice)
  | .init => vgaTextInit dev
  | .putchar c => vgaTextPutchar dev c
  | .write data => vgaTextWrite dev data
  | .newline => vgaTextNewline dev
  | .setColor color => some (vgaTextSetColor dev color)
  | .setCursor x y => some (vgaTextSetCursor dev x y)
  | .moveCursor dx dy => some (vgaTextMoveCursor dev dx dy)
  | .putcharAt c color x y => vgaTextPutcharAt dev c color x y
  | .scrollUp lines => vgaTextScrollUp dev lines
  | .clear => vgaTextClear dev

end Frostix.Drivers
