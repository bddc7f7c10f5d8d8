import Frostix.Lib.Raster
import Frostix.Drivers.VbeBlit

/-!
The framebuffer as a raster. Each drawing function acts on the pixels of the screen as the
operation on rasters that it stands for, whatever the depth. -/
namespace Frostix.Drivers

open ByteMemory CellStores Loop Raster Tty

structure Plain (dev : VbeDevice) : Prop extends Format dev where
  whole : dev.bpp ≠ 15
  notNull : dev.NotNull

variable {dev : VbeDevice}

theorem Plain.spaced (hp : Plain dev) : dev.Spaced := (spaced_iff hp.toFormat).mpr fun h => absurd h hp.whole

def VbeDevice.encoded (dev : VbeDevice) (color : VbeColor) : List (BitVec 8) :=
  (List.range dev.pixelBytes).map (byteAt (vbeColorToPixel dev color))

def VbeDevice.canvas (dev : VbeDevice) (fb : Mem) : Canvas (List (BitVec 8)) := fun x y =>
  if x < dev.width.toNat ∧ y < dev.height.toNat then dev.bytesAt fb (dev.cell x y) else []

theorem canvas_of_paints (hm : Format dev) {f : Mem → Mem} {P : Nat → Nat → Prop} {color : VbeColor}
    (hpaints : Paints f {o | ∃ x y, P x y ∧ o ∈ dev.cellBytes x y} (dev.picture (vbeColorToPixel dev color)))
    (hin : ∀ x y, P x y → x < dev.width.toNat ∧ y < dev.height.toNat) (fb : Mem) (x y : Nat) :
    (P x y → dev.canvas (f fb) x y = dev.encoded color) ∧
    (¬P x y → dev.canvas (f fb) x y = dev.canvas fb x y) := by
  constructor
  · intro hxy
    have hscreen := hin x y hxy
    rw [VbeDevice.canvas, if_pos hscreen, VbeDevice.bytesAt, VbeDevice.encoded]
    refine List.map_congr_left fun k hk => ?_
    rw [List.mem_range] at hk
    rw [hpaints.inside fb _ ⟨x, y, hxy, k, hk, rfl⟩, VbeDevice.picture, (cell_split hm hscreen.1 hk).2,
      Nat.mul_comm, Nat.mul_add_mod, Nat.mod_eq_of_lt hk]
  · intro hxy
    unfold VbeDevice.canvas
    split_ifs with hscreen
    · refine bytesAt_eq_iff.mpr fun k hk => hpaints.outside fb _ ?_
      rintro ⟨x', y', hxy', hmem⟩
      obtain ⟨rfl, rfl⟩ := cellBytes_disjoint hm hscreen.1 (hin x' y' hxy').1 ⟨k, hk, rfl⟩ hmem
      exact hxy hxy'
    · rfl

theorem canvas_fillRect (hp : Plain dev) {x y width height : UInt16} (hin : InScreen dev x y width height)
    (fb : Mem) (color : VbeColor) :
    dev.canvas (vbeFillRect dev fb x y width height color).2 =
      fill (dev.canvas fb) x.toNat y.toNat width.toNat height.toNat (dev.encoded color) := by
  have hcols := hin.columns
  have hrows := hin.rows
  have hbytes : dev.rectBytes x y width height =
      {o | ∃ i j, InRect x.toNat y.toNat width.toNat height.toNat i j ∧ o ∈ dev.cellBytes i j} := by
    ext o
    constructor
    · rintro ⟨j, hj, i, hi, ho⟩
      rw [List.mem_range] at hi hj
      exact ⟨_, _, ⟨⟨by omega, by omega⟩, by omega, by omega⟩, ho⟩
    · rintro ⟨i, j, ⟨⟨hxi, hi⟩, hyj, hj⟩, ho⟩
      refine ⟨j - y.toNat, List.mem_range.mpr (by omega), i - x.toNat, List.mem_range.mpr (by omega), ?_⟩
      rwa [Nat.add_sub_cancel' hxi, Nat.add_sub_cancel' hyj]
  have hpaints := vbeFillRect_paints hp.toFormat hp.spaced hp.notNull hin color
  rw [hbytes] at hpaints
  funext i j
  obtain ⟨hinside, houtside⟩ := canvas_of_paints hp.toFormat hpaints
    (fun i j h => ⟨by have := h.1; omega, by have := h.2; omega⟩) fb i j
  unfold fill stamp
  split_ifs with h
  · exact hinside h
  · exact houtside h

theorem canvas_putPixel (hp : Plain dev) {x y : UInt16} (hx : x < dev.width) (hy : y < dev.height) (fb : Mem)
    (color : VbeColor) :
    (vbePutPixel dev fb x y color).1 = .ok ∧
      dev.canvas (vbePutPixel dev fb x y color).2 =
        fill (dev.canvas fb) x.toNat y.toNat 1 1 (dev.encoded color) := by
  refine ⟨by rw [vbePutPixel_eq hp.toReady fb hx hy], ?_⟩
  rw [UInt16.lt_iff_toNat_lt] at hx hy
  have hpaints := vbePutPixel_paints hp.toFormat hp.spaced (UInt16.lt_iff_toNat_lt.mpr hx)
    (UInt16.lt_iff_toNat_lt.mpr hy) color
  have hbytes : dev.cellBytes x.toNat y.toNat =
      {o | ∃ i j, InRect x.toNat y.toNat 1 1 i j ∧ o ∈ dev.cellBytes i j} := by
    ext o
    constructor
    · exact fun ho => ⟨_, _, ⟨⟨le_rfl, Nat.lt_succ_self _⟩, le_rfl, Nat.lt_succ_self _⟩, ho⟩
    · rintro ⟨i, j, ⟨⟨hxi, hi⟩, hyj, hj⟩, ho⟩
      rwa [show x.toNat = i by omega, show y.toNat = j by omega]
  rw [hbytes] at hpaints
  funext i j
  obtain ⟨hinside, houtside⟩ := canvas_of_paints hp.toFormat hpaints
    (fun i j h => ⟨by have := h.1; omega, by have := h.2; omega⟩) fb i j
  unfold fill stamp
  split_ifs with h
  · exact hinside h
  · exact houtside h

theorem canvas_blit (hp : Plain dev) {dstX dstY srcX srcY width height : UInt16}
    (ha : Accepts dev dstX dstY srcX srcY width height) (hsafe : Safe dstX dstY srcX srcY width height)
    (fb : Mem) :
    dev.canvas (vbeBlit dev fb dstX dstY srcX srcY width height).2 =
      move (dev.canvas fb) dstX.toNat dstY.toNat srcX.toNat srcY.toNat width.toNat height.toNat := by
  have hdc := ha.dstColumns
  have hdr := ha.dstRows
  have hsc := ha.srcColumns
  have hsr := ha.srcRows
  have hmoves := (moves_iff_unharmed hp.toFormat hp.whole ha fb).mpr ((safe_iff hp.toFormat ha).mpr hsafe fb)
  funext i j
  unfold move stamp
  split_ifs with h
  · obtain ⟨⟨hxi, hi⟩, hyj, hj⟩ := h
    have hmoved := hmoves.moved (j - dstY.toNat, i - dstX.toNat) (mem_rowMajor.mpr ⟨by omega, by omega⟩)
    simp only [VbeDevice.pixelIn, Nat.add_sub_cancel' hxi, Nat.add_sub_cancel' hyj] at hmoved
    show _ = dev.canvas fb (srcX.toNat + (i - dstX.toNat)) (srcY.toNat + (j - dstY.toNat))
    rw [VbeDevice.canvas, if_pos (by omega), VbeDevice.canvas, if_pos (by omega), hmoved]
  · unfold VbeDevice.canvas
    split_ifs with hscreen
    · refine bytesAt_eq_iff.mpr fun k hk => hmoves.kept _ fun p hp' k' hk' heq => ?_
      obtain ⟨hp₁, hp₂⟩ := mem_rowMajor.mp hp'
      obtain ⟨hcol, hrow, -⟩ := cell_inj hp.toFormat hscreen.1 (by omega) hk hk' heq
      exact h ⟨⟨by omega, by omega⟩, by omega, by omega⟩
    · rfl

end Frostix.Drivers
