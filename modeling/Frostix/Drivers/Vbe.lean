import Frostix.Kernel
import Frostix.Lib.ByteMemory
import Frostix.Lib.CellStores
import Frostix.Lib.While
import Frostix.Tty.Model

/-!
The graphics driver (`vbe.c`). Memory is indexed from the first byte of the framebuffer
on: byte `k` is at the address `framebuffer_addr + k`, which wraps, and so do all indices.
The product of a row and the pitch is an `int`; where it overflows it wraps as well. -/
namespace Frostix.Drivers

open Machine32 ByteMemory Libc Tty

/-- The fields of `vbe_mode_info_t` that `vbe_init` reads. -/
structure VbeModeInfo where
  bytesPerScanline : UInt16
  linBytesPerScanLine : UInt16
  xResolution : UInt16
  yResolution : UInt16
  bitsPerPixel : UInt8
  physBasePtr : UInt32
  redMaskSize : UInt8
  redFieldPosition : UInt8
  greenMaskSize : UInt8
  greenFieldPosition : UInt8
  blueMaskSize : UInt8
  blueFieldPosition : UInt8
  rsvdFieldPosition : UInt8
  linRedMaskSize : UInt8
  linRedFieldPosition : UInt8
  linGreenMaskSize : UInt8
  linGreenFieldPosition : UInt8
  linBlueMaskSize : UInt8
  linBlueFieldPosition : UInt8

/-- `vbe_device_t`, as far as drawing reads it; the reserved field is that of `mode_info`. -/
structure VbeDevice where
  initialized : Bool
  framebufferAddr : UInt32
  framebufferSize : Nat
  width : UInt16
  height : UInt16
  bpp : UInt8
  pitch : UInt16
  redMaskSize : UInt8
  redFieldPosition : UInt8
  greenMaskSize : UInt8
  greenFieldPosition : UInt8
  blueMaskSize : UInt8
  blueFieldPosition : UInt8
  rsvdFieldPosition : UInt8

/-- `vbe_init`; there is no mode if the boot loader did not set the flag. -/
def vbeInit (dev : VbeDevice) : Option VbeModeInfo → KernelStatus × VbeDevice
  | none => (.error, dev)
  | some mode =>
      let pitch := if mode.bytesPerScanline ≠ 0 then mode.bytesPerScanline else mode.linBytesPerScanLine
      let linear := mode.linRedMaskSize ≠ 0
      (.ok, {
        initialized := true
        framebufferAddr := mode.physBasePtr
        framebufferSize := mode.yResolution.toNat * pitch.toNat
        width := mode.xResolution
        height := mode.yResolution
        bpp := mode.bitsPerPixel
        pitch
        redMaskSize := if linear then mode.linRedMaskSize else mode.redMaskSize
        redFieldPosition := if linear then mode.linRedFieldPosition else mode.redFieldPosition
        greenMaskSize := if linear then mode.linGreenMaskSize else mode.greenMaskSize
        greenFieldPosition := if linear then mode.linGreenFieldPosition else mode.greenFieldPosition
        blueMaskSize := if linear then mode.linBlueMaskSize else mode.blueMaskSize
        blueFieldPosition := if linear then mode.linBlueFieldPosition else mode.blueFieldPosition
        rsvdFieldPosition := mode.rsvdFieldPosition })

def channelToField (c : Byte) (size : UInt8) : BitVec 32 :=
  if size ≠ 0 then c.setWidth 32 * (1#32 <<< size.toNat - 1#32) / 255#32 else 0#32

def vbeColorToPixel (dev : VbeDevice) (color : VbeColor) : BitVec 32 :=
  let r := channelToField color.red dev.redMaskSize
  let g := channelToField color.green dev.greenMaskSize
  let b := channelToField color.blue dev.blueMaskSize
  let a := 0#32
  r <<< dev.redFieldPosition.toNat ||| g <<< dev.greenFieldPosition.toNat |||
    b <<< dev.blueFieldPosition.toNat ||| a <<< dev.rsvdFieldPosition.toNat

def fieldMask (size : UInt8) : BitVec 32 := if size ≠ 0 then 1#32 <<< size.toNat - 1#32 else 1#32

/-- The field of this size and position, scaled to a channel of a colour. -/
def fieldToChannel (pixel : BitVec 32) (size pos : UInt8) : Byte :=
  let mask := fieldMask size
  ((pixel >>> pos.toNat &&& mask) * 255#32 / (if mask ≠ 0#32 then mask else 1#32)).setWidth 8

def vbePixelToColor (dev : VbeDevice) (pixel : BitVec 32) : VbeColor where
  red := fieldToChannel pixel dev.redMaskSize dev.redFieldPosition
  green := fieldToChannel pixel dev.greenMaskSize dev.greenFieldPosition
  blue := fieldToChannel pixel dev.blueMaskSize dev.blueFieldPosition
  alpha := 255#8

/-- The byte of `v` with this index, the least significant first. -/
def byteAt (v : BitVec 32) (k : Nat) : Byte := (v >>> (8 * k)).setWidth 8

/-- A store of the low `n` bytes of `v`. -/
def store (fb : Mem) (a n : Nat) (v : BitVec 32) : Mem :=
  (List.range n).foldl (fun fb k => store8 fb (wrap (a + k)) (byteAt v k)) fb

/-- A load of `n` bytes, extended with zeros. -/
def load (fb : Mem) (a n : Nat) : BitVec 32 :=
  (List.range n).foldl (fun v k => v ||| (fb (wrap (a + k))).setWidth 32 <<< (8 * k)) 0#32

/-- The offset of a pixel in `vbe_put_pixel` and `vbe_get_pixel`. -/
def pixelOffset (dev : VbeDevice) (x y : UInt16) : Nat :=
  wrap (y.toNat * dev.pitch.toNat + x.toNat * (dev.bpp.toNat / 8))

def vbePutPixel (dev : VbeDevice) (fb : Mem) (x y : UInt16) (color : VbeColor) : KernelStatus × Mem :=
  if !dev.initialized || dev.width ≤ x || dev.height ≤ y then (.invalidParam, fb)
  else
    let offset := pixelOffset dev x y
    let pixel := vbeColorToPixel dev color
    if dev.bpp = 8 then (.ok, store fb offset 1 pixel)
    else if dev.bpp = 15 ∨ dev.bpp = 16 then (.ok, store fb offset 2 pixel)
    else if dev.bpp = 24 then
      let fb := store fb (offset + 0) 1 (pixel &&& 0xFF#32)
      let fb := store fb (offset + 1) 1 (pixel >>> 8 &&& 0xFF#32)
      (.ok, store fb (offset + 2) 1 (pixel >>> 16 &&& 0xFF#32))
    else if dev.bpp = 32 then (.ok, store fb offset 4 pixel)
    else (.notImplemented, fb)

def vbeGetPixel (dev : VbeDevice) (fb : Mem) (x y : UInt16) : VbeColor :=
  if !dev.initialized || dev.width ≤ x || dev.height ≤ y then ⟨0#8, 0#8, 0#8, 0#8⟩
  else
    let offset := pixelOffset dev x y
    if dev.bpp = 8 then vbePixelToColor dev (load fb offset 1)
    else if dev.bpp = 15 ∨ dev.bpp = 16 then vbePixelToColor dev (load fb offset 2)
    else if dev.bpp = 24 then vbePixelToColor dev (load fb offset 3)
    else if dev.bpp = 32 then vbePixelToColor dev (load fb offset 4)
    else ⟨0#8, 0#8, 0#8, 0#8⟩

/-- `memset` on a line of the framebuffer; it does nothing at the null pointer. -/
def memsetLine (dev : VbeDevice) (fb : Mem) (line : Nat) (value : BitVec 32) (num : Nat) : Mem :=
  if wrap (dev.framebufferAddr.toNat + line) = 0 then fb
  else (List.range num).foldl (fun fb i => store fb (line + i) 1 value) fb

/-- One row of `vbe_fill_rect`; `none` is a depth that it does not support. -/
def fillRow (dev : VbeDevice) (fb : Mem) (line width : Nat) (pixel : BitVec 32) : Option Mem :=
  if dev.bpp = 32 then
    if wrap (dev.framebufferAddr.toNat + line) % 4 = 0 then
      some ((List.range width).foldl (fun fb i => store fb (line + 4 * i) 4 pixel) fb)
    else some ((List.range width).foldl (fun fb i => store fb (line + i * 4) 4 pixel) fb)
  else if dev.bpp = 24 then
    some ((List.range width).foldl (fun fb i =>
      let fb := store fb (line + (i * 3 + 0)) 1 pixel
      let fb := store fb (line + (i * 3 + 1)) 1 (pixel >>> 8)
      store fb (line + (i * 3 + 2)) 1 (pixel >>> 16)) fb)
  else if dev.bpp = 15 ∨ dev.bpp = 16 then
    some ((List.range width).foldl (fun fb i => store fb (line + 2 * i) 2 pixel) fb)
  else if dev.bpp = 8 then some (memsetLine dev fb line pixel width)
  else none

def vbeFillRect (dev : VbeDevice) (fb : Mem) (x y width height : UInt16) (color : VbeColor) :
    KernelStatus × Mem :=
  if !dev.initialized || dev.width.toNat < x.toNat + width.toNat ||
      dev.height.toNat < y.toNat + height.toNat || width == 0 || height == 0 then (.invalidParam, fb)
  else
    let pixel := vbeColorToPixel dev color
    let offset := wrap (y.toNat * dev.pitch.toNat + x.toNat * (dev.bpp.toNat / 8))
    -- an unsupported depth ends the first row, before anything is written
    match (List.range height.toNat).foldlM (fun fb row =>
        fillRow dev fb (wrap (offset + row * dev.pitch.toNat)) width.toNat pixel) fb with
    | some fb' => (.ok, fb')
    | none => (.notImplemented, fb)

/-- One pixel of `vbe_blit`. -/
def blitPixel (dev : VbeDevice) (fb : Mem) (dst src col : Nat) : Option Mem :=
  if dev.bpp = 8 then some (store fb (dst + col) 1 (load fb (src + col) 1))
  else if dev.bpp = 15 ∨ dev.bpp = 16 then some (store fb (dst + 2 * col) 2 (load fb (src + 2 * col) 2))
  else if dev.bpp = 24 then
    let fb := store fb (dst + (col * 3 + 0)) 1 (load fb (src + (col * 3 + 0)) 1)
    let fb := store fb (dst + (col * 3 + 1)) 1 (load fb (src + (col * 3 + 1)) 1)
    some (store fb (dst + (col * 3 + 2)) 1 (load fb (src + (col * 3 + 2)) 1))
  else if dev.bpp = 32 then some (store fb (dst + 4 * col) 4 (load fb (src + 4 * col) 4))
  else none

def vbeBlit (dev : VbeDevice) (fb : Mem) (dstX dstY srcX srcY width height : UInt16) : KernelStatus × Mem :=
  if !dev.initialized then (.error, fb)
  else if dev.width.toNat < dstX.toNat + width.toNat ∨ dev.height.toNat < dstY.toNat + height.toNat ∨
      dev.width.toNat < srcX.toNat + width.toNat ∨ dev.height.toNat < srcY.toNat + height.toNat then
    (.invalidParam, fb)
  else
    let bppBytes := dev.bpp.toNat / 8
    match (List.range height.toNat).foldlM (fun fb row =>
        let src := wrap ((srcY.toNat + row) * dev.pitch.toNat + srcX.toNat * bppBytes)
        let dst := wrap ((dstY.toNat + row) * dev.pitch.toNat + dstX.toNat * bppBytes)
        (List.range width.toNat).foldlM (fun fb col => blitPixel dev fb dst src col) fb) fb with
    | some fb' => (.ok, fb')
    | none => (.notImplemented, fb)

def vbeClearScreen (dev : VbeDevice) (fb : Mem) (color : VbeColor) : KernelStatus × Mem :=
  vbeFillRect dev fb 0 0 dev.width dev.height color

/-- `vbe_scroll`, for a font of this height. The results of its two calls are dropped. -/
def vbeScroll (dev : VbeDevice) (fb : Mem) (lineH : UInt16) (bgColor : VbeColor) : KernelStatus × Mem :=
  if !dev.initialized then (.error, fb)
  else if dev.height ≤ lineH then (.error, fb)
  else
    let (_, fb) := vbeBlit dev fb 0 0 0 lineH dev.width (dev.height - lineH)
    let (_, fb) := vbeFillRect dev fb 0 (dev.height - lineH) dev.width lineH bgColor
    (.ok, fb)

/-- The variables that the loop of `vbe_draw_line` changes, and the framebuffer. -/
structure LineState where
  x : UInt16
  y : UInt16
  err : Int
  fb : Mem

structure LineParams where
  x2 : UInt16
  y2 : UInt16
  absDx : Int
  absDy : Int
  sx : Int
  sy : Int

def lineParams (x1 y1 x2 y2 : UInt16) : LineParams :=
  let dx : Int := (x2.toNat : Int) - x1.toNat
  let dy : Int := (y2.toNat : Int) - y1.toNat
  { x2, y2
    absDx := if 0 ≤ dx then dx else -dx
    absDy := if 0 ≤ dy then dy else -dy
    sx := if x1 < x2 then 1 else -1
    sy := if y1 < y2 then 1 else -1 }

/-- The first error term; the division of C truncates towards zero. -/
def LineParams.firstErr (p : LineParams) : Int :=
  (if p.absDy < p.absDx then p.absDx else -p.absDy).tdiv 2

/-- The loop body of `vbe_draw_line`. Both conditions test the old error term. -/
def lineBody (dev : VbeDevice) (color : VbeColor) (p : LineParams) (s : LineState) :
    Option (While.Outcome LineState (KernelStatus × Mem)) :=
  let (status, fb) := vbePutPixel dev s.fb s.x s.y color
  if status ≠ .ok then some (.stop (.error, fb))
  else if s.x = p.x2 ∧ s.y = p.y2 then some (.stop (.ok, fb))
  else
    let e2 := s.err
    let (err, x) := if -p.absDx < e2 then (sint (s.err - p.absDy), u16 (s.x.toNat + p.sx)) else (s.err, s.x)
    let (err, y) := if e2 < p.absDy then (sint (err + p.absDx), u16 (s.y.toNat + p.sy)) else (err, s.y)
    some (.next ⟨x, y, err, fb⟩)

/-- The loop of `vbe_draw_line` as it is entered. -/
def lineStart (fb : Mem) (x1 y1 x2 y2 : UInt16) : LineState :=
  ⟨x1, y1, (lineParams x1 y1 x2 y2).firstErr, fb⟩

/-- `vbe_draw_line`, for at most this many rounds of its loop. -/
def vbeDrawLine (dev : VbeDevice) (fb : Mem) (x1 y1 x2 y2 : UInt16) (color : VbeColor) (rounds : Nat) :
    Option (KernelStatus × Mem) :=
  While.iterate (lineBody dev color (lineParams x1 y1 x2 y2)) rounds (lineStart fb x1 y1 x2 y2)

end Frostix.Drivers
