import Frostix.Drivers.VbeCanvas

/-!
The bitmap font (`font.c`). A row of a glyph is a byte, its highest bit on the left, and a
glyph has sixteen rows. -/
namespace Frostix.Drivers

open Machine32 ByteMemory Libc Loop Raster Tty

/-- `font_t`, with cells that its data covers. -/
structure Font where
  width : UInt8
  height : UInt8
  data : Byte → Nat → Byte
  width_range : 0 < width.toNat ∧ width.toNat ≤ 8
  height_range : 0 < height.toNat ∧ height.toNat ≤ 16

/-- `bits & mask`. -/
def Font.ink (font : Font) (c : Byte) (row col : Nat) : Bool := (font.data c row).getLsbD (7 - col)

def Font.color (font : Font) (c : Byte) (fg bg : VbeColor) (row col : Nat) : VbeColor :=
  if font.ink c row col then fg else bg

/-- One pixel of `font_render_char`; an error ends the call. -/
def renderPixel (dev : VbeDevice) (font : Font) (c : Byte) (x y : UInt16) (fg bg : VbeColor) (fb : Mem)
    (p : Nat × Nat) : Except Mem Mem :=
  let (status, fb) := vbePutPixel dev fb (u16 (x.toNat + p.2)) (u16 (y.toNat + p.1)) (font.color c fg bg p.1 p.2)
  if status ≠ .ok then .error fb else .ok fb

def fontRenderChar (dev : VbeDevice) (fb : Mem) (c : Byte) (x y : UInt16) (fg bg : VbeColor) (font : Font) :
    KernelStatus × Mem :=
  if !dev.initialized then (.error, fb)
  else if dev.width.toNat < x.toNat + font.width.toNat ∨ dev.height.toNat < y.toNat + font.height.toNat then
    (.invalidParam, fb)
  else
    match (rowMajor font.height.toNat font.width.toNat).foldlM (renderPixel dev font c x y fg bg) fb with
    | .ok fb => (.ok, fb)
    | .error fb => (.error, fb)

theorem toNat_u16_nat {n : Nat} (h : n < 65536) : (u16 (n : Int)).toNat = n := by
  have hval := @toNat_u16_of_range n (by omega) (by omega)
  omega

variable {dev : VbeDevice}

def VbeDevice.glyph (dev : VbeDevice) (font : Font) (c : Byte) (fg bg : VbeColor) : Canvas (List (BitVec 8)) :=
  fun i j => dev.encoded (font.color c fg bg j i)

theorem renderPixel_canvas (hp : Plain dev) (font : Font) (c : Byte) {x y : UInt16} (fg bg : VbeColor)
    {p : Nat × Nat} (hx : x.toNat + p.2 < dev.width.toNat) (hy : y.toNat + p.1 < dev.height.toNat) (fb : Mem) :
    ∃ fb', renderPixel dev font c x y fg bg fb p = .ok fb' ∧
      dev.canvas fb' = fill (dev.canvas fb) (x.toNat + p.2) (y.toNat + p.1) 1 1
        (dev.encoded (font.color c fg bg p.1 p.2)) := by
  have hw := dev.width.toNat_lt
  have hh := dev.height.toNat_lt
  have hx' : (u16 (x.toNat + p.2)).toNat = x.toNat + p.2 := by
    have hval := @toNat_u16_of_range (x.toNat + p.2) (by omega) (by omega)
    omega
  have hy' : (u16 (y.toNat + p.1)).toNat = y.toNat + p.1 := by
    have hval := @toNat_u16_of_range (y.toNat + p.1) (by omega) (by omega)
    omega
  obtain ⟨hok, hcanvas⟩ := canvas_putPixel hp (x := u16 (x.toNat + p.2)) (y := u16 (y.toNat + p.1))
    (UInt16.lt_iff_toNat_lt.mpr (by omega)) (UInt16.lt_iff_toNat_lt.mpr (by omega)) fb
    (font.color c fg bg p.1 p.2)
  rw [hx', hy'] at hcanvas
  refine ⟨_, ?_, hcanvas⟩
  unfold renderPixel
  simp only [hok, ne_eq, not_true, if_false]

theorem renderPixels_canvas (hp : Plain dev) (font : Font) (c : Byte) {x y : UInt16} (fg bg : VbeColor)
    (ps : List (Nat × Nat)) :
    (∀ p ∈ ps, x.toNat + p.2 < dev.width.toNat ∧ y.toNat + p.1 < dev.height.toNat) → ∀ fb,
    ∃ fb', ps.foldlM (renderPixel dev font c x y fg bg) fb = .ok fb' ∧
      dev.canvas fb' = ps.foldl (fun cv p => fill cv (x.toNat + p.2) (y.toNat + p.1) 1 1
        (dev.glyph font c fg bg p.2 p.1)) (dev.canvas fb) := by
  induction ps with
  | nil => exact fun _ fb => ⟨fb, rfl, rfl⟩
  | cons p ps ih =>
      intro hin fb
      obtain ⟨hx, hy⟩ := hin p List.mem_cons_self
      obtain ⟨fb₁, hrun, hcanvas⟩ := renderPixel_canvas hp font c fg bg hx hy fb
      obtain ⟨fb₂, hrun', hcanvas'⟩ := ih (fun q hq => hin q (List.mem_cons_of_mem p hq)) fb₁
      refine ⟨fb₂, ?_, ?_⟩
      · rw [List.foldlM_cons, hrun]
        exact hrun'
      · rw [hcanvas', List.foldl_cons, hcanvas]
        rfl

theorem fontRenderChar_canvas (hp : Plain dev) (font : Font) (c : Byte) {x y : UInt16} (fg bg : VbeColor)
    (hx : x.toNat + font.width.toNat ≤ dev.width.toNat) (hy : y.toNat + font.height.toNat ≤ dev.height.toNat)
    (fb : Mem) :
    (fontRenderChar dev fb c x y fg bg font).1 = .ok ∧
      dev.canvas (fontRenderChar dev fb c x y fg bg font).2 =
        stamp (dev.canvas fb) x.toNat y.toNat font.width.toNat font.height.toNat (dev.glyph font c fg bg) := by
  obtain ⟨fb', hrun, hcanvas⟩ := renderPixels_canvas hp font c (x := x) (y := y) fg bg
    (rowMajor font.height.toNat font.width.toNat)
    (fun p hmem => by obtain ⟨hrow, hcol⟩ := mem_rowMajor.mp hmem; omega) fb
  have heq : fontRenderChar dev fb c x y fg bg font = (.ok, fb') := by
    unfold fontRenderChar
    rw [if_neg (by simp [hp.initialized]), if_neg (by omega), hrun]
  rw [heq, hcanvas, stamp_pixels]
  exact ⟨rfl, rfl⟩

end Frostix.Drivers
