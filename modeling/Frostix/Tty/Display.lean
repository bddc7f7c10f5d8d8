import Frostix.Drivers.Font
import Frostix.Tty.Cursor

/-!
The terminal on the framebuffer. Whatever is printed, every rectangle that the terminal draws
is made of character cells; so the screen always shows a grid of cells, and nothing below the
terminal's last row is touched. -/
namespace Frostix.Tty

open Machine32 ByteMemory Libc Raster Drivers Transition

/-- What the display does for a request. The terminal drops the results of its calls. -/
def display (dev : VbeDevice) (font : Font) (fb : Mem) : Output → Mem
  | .fillRect x y width height color => (vbeFillRect dev fb x y width height color).2
  | .blit dstX dstY srcX srcY width height => (vbeBlit dev fb dstX dstY srcX srcY width height).2
  | .renderChar c x y fg bg => (fontRenderChar dev fb c x y fg bg font).2
  | .serialFg _ => fb
  | .serialBg _ => fb
  | .cursorReport _ _ => fb

inductive Cell where
  | glyph (c : Byte) (fg bg : VbeColor)
  | block (color : VbeColor)
  deriving DecidableEq

def cellTile (dev : VbeDevice) (font : Font) : Cell → Canvas (List (BitVec 8))
  | .glyph c fg bg => dev.glyph font c fg bg
  | .block color => fun _ _ => dev.encoded color

def cellDisplay (font : Font) (rows : Nat) (g : Grid Cell) : Output → Grid Cell
  | .fillRect x y width height color =>
      setTiles g (y.toNat / font.height.toNat) (x.toNat / font.width.toNat) (height.toNat / font.height.toNat)
        (width.toNat / font.width.toNat) (.block color)
  | .blit _ _ _ _ _ _ => shiftUp g rows
  | .renderChar c x y fg bg =>
      setTiles g (y.toNat / font.height.toNat) (x.toNat / font.width.toNat) 1 1 (.glyph c fg bg)
  | .serialFg _ => g
  | .serialBg _ => g
  | .cursorReport _ _ => g

/-- The terminal fits on the screen and leaves a line of text free at its bottom. -/
structure Fits (con : Console) (dev : VbeDevice) (font : Font) : Prop where
  fontWidth : con.term.fontWidth = font.width
  fontHeight : con.term.fontHeight = font.height
  screenWidth : con.screenWidth = dev.width
  columns : con.term.maxCols.toNat * font.width.toNat ≤ dev.width.toNat
  rows : (con.term.maxRows.toNat + 1) * font.height.toNat ≤ dev.height.toNat

def Aligned (dev : VbeDevice) (font : Font) (rows cols : Nat) : Output → Prop
  | .fillRect x y width height _ =>
      ∃ row col n k, x.toNat = col * font.width.toNat ∧ y.toNat = row * font.height.toNat ∧
        height.toNat = n * font.height.toNat ∧ 0 < n ∧ row + n ≤ rows ∧
        (width.toNat = k * font.width.toNat ∧ 0 < k ∧ col + k ≤ cols ∨ col = 0 ∧ width = dev.width)
  | .blit dstX dstY srcX srcY width height =>
      dstX = 0 ∧ dstY = 0 ∧ srcX = 0 ∧ srcY.toNat = font.height.toNat ∧ width = dev.width ∧
        height.toNat = (rows - 1) * font.height.toNat
  | .renderChar _ x y _ _ =>
      ∃ row col, x.toNat = col * font.width.toNat ∧ y.toNat = row * font.height.toNat ∧ row < rows ∧ col < cols
  | _ => True

variable {dev : VbeDevice} {font : Font} {rows cols : Nat}

/-- What is drawn changes a grid of cells in the terminal's rows, and nothing below them. -/
structure Drawn (dev : VbeDevice) (font : Font) (rows cols : Nat) (fb fb' : Mem)
    (change : Grid Cell → Grid Cell) : Prop where
  shows : ∀ g, Shows (dev.canvas fb) (cellTile dev font) font.width.toNat font.height.toNat rows cols g →
    Shows (dev.canvas fb') (cellTile dev font) font.width.toNat font.height.toNat rows cols (change g)
  below : ∀ i j, rows * font.height.toNat ≤ j → dev.canvas fb' i j = dev.canvas fb i j

theorem Drawn.trans {fb fb₁ fb₂ : Mem} {change change' : Grid Cell → Grid Cell}
    (h : Drawn dev font rows cols fb fb₁ change) (h' : Drawn dev font rows cols fb₁ fb₂ change') :
    Drawn dev font rows cols fb fb₂ (change' ∘ change) :=
  ⟨fun g hg => h'.shows _ (h.shows g hg), fun i j hj => (h'.below i j hj).trans (h.below i j hj)⟩

theorem display_aligned (hp : Plain dev) (hcols : cols * font.width.toNat ≤ dev.width.toNat)
    (hrows : (rows + 1) * font.height.toNat ≤ dev.height.toNat) (hpos : 0 < rows) (hwide : 0 < cols) (fb : Mem)
    {o : Output} (ho : Aligned dev font rows cols o) :
    Drawn dev font rows cols fb (display dev font fb o) (cellDisplay font rows · o) := by
  have hfw := font.width_range.1
  have hfh := font.height_range.1
  have hlast : rows * font.height.toNat = (rows - 1) * font.height.toNat + font.height.toNat := by
    rw [← Nat.succ_mul, Nat.succ_eq_add_one, Nat.sub_add_cancel hpos]
  rw [Nat.succ_mul] at hrows
  cases o with
  | fillRect x y width height color =>
      obtain ⟨row, col, n, k, hx, hy, hh, hn, hrow, hw⟩ := ho
      have hbottom : row * font.height.toNat + n * font.height.toNat ≤ rows * font.height.toNat := by
        rw [← Nat.add_mul]
        exact Nat.mul_le_mul_right _ hrow
      have hheight : 0 < n * font.height.toNat := Nat.mul_pos hn hfh
      have hright : 0 < width.toNat ∧ x.toNat + width.toNat ≤ dev.width.toNat := by
        rcases hw with ⟨hw, hk, hcol⟩ | ⟨rfl, rfl⟩
        · have hle := Nat.mul_le_mul_right font.width.toNat hcol
          rw [Nat.add_mul] at hle
          have hkpos := Nat.mul_pos hk hfw
          exact ⟨by omega, by omega⟩
        · have hone := Nat.mul_pos hwide hfw
          exact ⟨by omega, by omega⟩
      have hin : InScreen dev x y width height :=
        ⟨hright.2, by omega, fun h => by rw [h] at hright; exact absurd hright.1 (by decide),
          fun h => by rw [h, UInt16.toNat_zero] at hh; omega⟩
      have hcanvas : dev.canvas (display dev font fb (.fillRect x y width height color)) =
          fill (dev.canvas fb) (col * font.width.toNat) (row * font.height.toNat) width.toNat
            (n * font.height.toNat) (dev.encoded color) := by
        rw [display, canvas_fillRect hp hin, hx, hy, hh]
      have hdivs : y.toNat / font.height.toNat = row ∧ x.toNat / font.width.toNat = col ∧
          height.toNat / font.height.toNat = n := by
        rw [hx, hy, hh]
        exact ⟨Nat.mul_div_cancel _ hfh, Nat.mul_div_cancel _ hfw, Nat.mul_div_cancel _ hfh⟩
      refine ⟨fun g hshows => ?_, fun i j hj => ?_⟩
      · rw [hcanvas, cellDisplay, hdivs.1, hdivs.2.1, hdivs.2.2]
        refine hshows.fill_tiles hfw hfh (fun _ _ => rfl) ?_
        rcases hw with ⟨hw, -, -⟩ | ⟨rfl, rfl⟩
        · exact .inl (by rw [hw, Nat.mul_div_cancel _ hfw])
        · refine .inr ⟨by omega, ?_⟩
          rw [Nat.zero_add]
          exact (Nat.le_div_iff_mul_le hfw).mpr hcols
      · rw [hcanvas]
        exact stamp_outside (by unfold InRect; omega)
  | blit dstX dstY srcX srcY width height =>
      obtain ⟨rfl, rfl, rfl, hsrc, rfl, hh⟩ := ho
      have ha : Accepts dev 0 0 0 srcY dev.width height := by
        constructor <;> (try rw [UInt16.toNat_zero]) <;> omega
      have hsafe : Drivers.Safe 0 0 0 srcY dev.width height :=
        .inr (.inl (UInt16.lt_iff_toNat_lt.mpr (by rw [UInt16.toNat_zero]; omega)))
      have hcanvas : dev.canvas (display dev font fb (.blit 0 0 0 srcY dev.width height)) =
          move (dev.canvas fb) 0 0 0 font.height.toNat dev.width.toNat ((rows - 1) * font.height.toNat) := by
        rw [display, canvas_blit hp ha hsafe, hsrc, hh]
        rfl
      refine ⟨fun g hshows => ?_, fun i j hj => ?_⟩
      · rw [hcanvas]
        exact hshows.shift_tiles hfh hpos hcols
      · rw [hcanvas]
        exact stamp_outside (by unfold InRect; omega)
  | renderChar c x y fg bg =>
      obtain ⟨row, col, hx, hy, hrow, hcol⟩ := ho
      have hbottom := Nat.mul_le_mul_right font.height.toNat (Nat.succ_le_of_lt hrow)
      have hright := Nat.mul_le_mul_right font.width.toNat (Nat.succ_le_of_lt hcol)
      rw [Nat.succ_mul] at hbottom hright
      have hcanvas : dev.canvas (display dev font fb (.renderChar c x y fg bg)) =
          stamp (dev.canvas fb) (col * font.width.toNat) (row * font.height.toNat) font.width.toNat
            font.height.toNat (dev.glyph font c fg bg) := by
        rw [display, (fontRenderChar_canvas hp font c fg bg (by omega) (by omega) fb).2, hx, hy]
      refine ⟨fun g hshows => ?_, fun i j hj => ?_⟩
      · rw [hcanvas, cellDisplay, hx, hy, Nat.mul_div_cancel _ hfh, Nat.mul_div_cancel _ hfw]
        exact hshows.stamp_tile hfw hfh row col (.glyph c fg bg)
      · rw [hcanvas]
        exact stamp_outside (by unfold InRect; omega)
  | serialFg color => exact ⟨fun _ hshows => hshows, fun _ _ _ => rfl⟩
  | serialBg color => exact ⟨fun _ hshows => hshows, fun _ _ _ => rfl⟩
  | cursorReport row col => exact ⟨fun _ hshows => hshows, fun _ _ _ => rfl⟩

theorem displays_aligned (hp : Plain dev) (hcols : cols * font.width.toNat ≤ dev.width.toNat)
    (hrows : (rows + 1) * font.height.toNat ≤ dev.height.toNat) (hpos : 0 < rows) (hwide : 0 < cols)
    {outs : List Output} : (∀ o ∈ outs, Aligned dev font rows cols o) → ∀ fb,
    Drawn dev font rows cols fb (outs.foldl (display dev font) fb) (outs.foldl (cellDisplay font rows)) := by
  induction outs with
  | nil => exact fun _ fb => ⟨fun _ hg => hg, fun _ _ _ => rfl⟩
  | cons o outs ih =>
      intro ho fb
      exact (display_aligned hp hcols hrows hpos hwide fb (ho o List.mem_cons_self)).trans
        (ih (fun o' ho' => ho o' (List.mem_cons_of_mem o ho')) _)

/-- From one console to the next these requests are made, all of cells, and the geometry stays. -/
structure Adds (dev : VbeDevice) (font : Font) (con con' : Console) (outs : List Output) : Prop where
  output : con'.output = con.output ++ outs
  aligned : ∀ o ∈ outs, Aligned dev font con.term.maxRows.toNat con.term.maxCols.toNat o
  maxRows : con'.term.maxRows = con.term.maxRows
  maxCols : con'.term.maxCols = con.term.maxCols
  fits : Fits con' dev font

theorem Adds.trans {con con₁ con₂ : Console} {outs outs' : List Output} (h : Adds dev font con con₁ outs)
    (h' : Adds dev font con₁ con₂ outs') : Adds dev font con con₂ (outs ++ outs') where
  output := by rw [h'.output, h.output, List.append_assoc]
  aligned := by
    intro o ho
    rcases List.mem_append.mp ho with ho | ho
    · exact h.aligned o ho
    · rw [← h.maxRows, ← h.maxCols]
      exact h'.aligned o ho
  maxRows := h'.maxRows.trans h.maxRows
  maxCols := h'.maxCols.trans h.maxCols
  fits := h'.fits

theorem Adds.quiet {con con' : Console} (hf : Fits con dev font) (hout : con'.output = con.output)
    (hscreen : con'.screenWidth = con.screenWidth)
    (hsize : con'.term.maxRows = con.term.maxRows ∧ con'.term.maxCols = con.term.maxCols ∧
      con'.term.fontWidth = con.term.fontWidth ∧ con'.term.fontHeight = con.term.fontHeight) :
    Adds dev font con con' [] where
  output := by rw [hout, List.append_nil]
  aligned := fun _ ho => absurd ho List.not_mem_nil
  maxRows := hsize.1
  maxCols := hsize.2.1
  fits := by
    obtain ⟨hrows, hcols, hwidth, hheight⟩ := hsize
    exact ⟨hwidth.trans hf.fontWidth, hheight.trans hf.fontHeight, hscreen.trans hf.screenWidth,
      hcols ▸ hf.columns, hrows ▸ hf.rows⟩

theorem Adds.emit {con : Console} (hf : Fits con dev font) {o : Output}
    (ho : Aligned dev font con.term.maxRows.toNat con.term.maxCols.toNat o) :
    Adds dev font con (con.emit o) [o] where
  output := rfl
  aligned := fun _ hmem => List.mem_singleton.mp hmem ▸ ho
  maxRows := rfl
  maxCols := rfl
  fits := ⟨hf.fontWidth, hf.fontHeight, hf.screenWidth, hf.columns, hf.rows⟩

theorem toNat_cells {n : Nat} {b : UInt8} (h : n * b.toNat < 65536) : (cells n b).toNat = n * b.toNat := by
  have hval := toNat_u16_sint ((n : Int) * b.toNat)
  unfold cells
  omega

section Geometry

variable {con : Console}

theorem Fits.column (hf : Fits con dev font) {n : Nat} (hn : n ≤ con.term.maxCols.toNat) :
    (cells n con.term.fontWidth).toNat = n * font.width.toNat := by
  have hle := Nat.mul_le_mul_right font.width.toNat hn
  have hcols := hf.columns
  have hwidth := dev.width.toNat_lt
  rw [toNat_cells] <;> rw [hf.fontWidth]
  omega

theorem Fits.row (hf : Fits con dev font) {n : Nat} (hn : n ≤ con.term.maxRows.toNat) :
    (cells n con.term.fontHeight).toNat = n * font.height.toNat := by
  have hle := Nat.mul_le_mul_right font.height.toNat hn
  have hrows := hf.rows
  have hheight := dev.height.toNat_lt
  rw [Nat.succ_mul] at hrows
  rw [toNat_cells] <;> rw [hf.fontHeight]
  omega

theorem Fits.cellWidth (hf : Fits con dev font) : (u16 con.term.fontWidth.toNat).toNat = font.width.toNat := by
  rw [hf.fontWidth]
  exact toNat_u16_nat (by have := font.width.toNat_lt; omega)

theorem Fits.cellHeight (hf : Fits con dev font) : (u16 con.term.fontHeight.toNat).toNat = font.height.toNat := by
  rw [hf.fontHeight]
  exact toNat_u16_nat (by have := font.height.toNat_lt; omega)

theorem Fits.aligned_row (hf : Fits con dev font) {row col k : Nat} (hrow : row < con.term.maxRows.toNat)
    (hk : 0 < k) (hcol : col + k ≤ con.term.maxCols.toNat) (color : VbeColor) :
    Aligned dev font con.term.maxRows.toNat con.term.maxCols.toNat
      (.fillRect (cells col con.term.fontWidth) (cells row con.term.fontHeight) (cells k con.term.fontWidth)
        (u16 con.term.fontHeight.toNat) color) :=
  ⟨row, col, 1, k, hf.column (by omega), hf.row (by omega), by rw [hf.cellHeight, Nat.one_mul], Nat.one_pos,
    hrow, .inl ⟨hf.column (by omega), hk, hcol⟩⟩

def cursorRect (term : Terminal) (row col : UInt16) (color : VbeColor) : Output :=
  .fillRect (cells col.toNat term.fontWidth) (cells row.toNat term.fontHeight) (u16 term.fontWidth.toNat)
    (u16 term.fontHeight.toNat) color

theorem Fits.aligned_cursor (hf : Fits con dev font) {row col : UInt16}
    (hrow : row.toNat < con.term.maxRows.toNat)
    (hcol : col.toNat < con.term.maxCols.toNat) (color : VbeColor) :
    Aligned dev font con.term.maxRows.toNat con.term.maxCols.toNat (cursorRect con.term row col color) :=
  ⟨row.toNat, col.toNat, 1, 1, hf.column hcol.le, hf.row hrow.le, by rw [hf.cellHeight, Nat.one_mul], Nat.one_pos,
    hrow, .inl ⟨by rw [hf.cellWidth, Nat.one_mul], Nat.one_pos, hcol⟩⟩

theorem adds_drawCursor (hf : Fits con dev font) (hin : con.term.Inside) :
    ∃ outs, Adds dev font con (terminalDrawCursor con) outs := by
  unfold terminalDrawCursor
  by_cases hon : con.term.ansiCtx.cursorEnabled = true
  · rw [if_pos hon]
    exact ⟨_, Adds.emit hf (hf.aligned_cursor hin.1 hin.2 _)⟩
  · rw [if_neg hon]
    exact ⟨[], Adds.quiet hf rfl rfl ⟨rfl, rfl, rfl, rfl⟩⟩

theorem adds_toggleCursor (hf : Fits con dev font) (hin : con.term.Inside) :
    ∃ outs, Adds dev font con (terminalToggleCursor con) outs := by
  unfold terminalToggleCursor
  split_ifs
  · have hquiet : Adds dev font con { con with cursorVisible := !con.cursorVisible } [] :=
      Adds.quiet hf rfl rfl ⟨rfl, rfl, rfl, rfl⟩
    obtain ⟨outs, hadds⟩ := @adds_drawCursor _ _ { con with cursorVisible := !con.cursorVisible } hquiet.fits hin
    exact ⟨_, hquiet.trans hadds⟩
  · exact ⟨[], Adds.quiet hf rfl rfl ⟨rfl, rfl, rfl, rfl⟩⟩

theorem adds_renderAtCursor (hf : Fits con dev font) (hin : con.term.Inside) (c : Byte) :
    ∃ outs, Adds dev font con (renderAtCursor con c) outs :=
  ⟨_, Adds.emit hf ⟨con.term.row.toNat, con.term.col.toNat, hf.column hin.2.le, hf.row hin.1.le, hin.1, hin.2⟩⟩

theorem stepBack_inside (hin : con.term.Inside) : (stepBack con).term.Inside := by
  obtain ⟨hrow, hcol⟩ := hin
  unfold stepBack
  dsimp only
  split_ifs with hback hup
  · refine ⟨hrow, ?_⟩
    simp only [Console.moveTo, toNat_pred (UInt16.lt_iff_toNat_lt.mp hback)]
    omega
  · refine ⟨?_, ?_⟩
    · simp only [Console.moveTo, toNat_pred (UInt16.lt_iff_toNat_lt.mp hup)]
      omega
    · simp only [Console.moveTo, toNat_pred (Nat.zero_lt_of_lt hcol)]
      omega
  · exact ⟨hrow, hcol⟩

theorem adds_wrapLine (hf : Fits con dev font) : Adds dev font con (wrapLine con) [] := by
  unfold wrapLine
  split_ifs
  · exact Adds.quiet hf rfl rfl ⟨rfl, rfl, rfl, rfl⟩
  · exact Adds.quiet hf rfl rfl ⟨rfl, rfl, rfl, rfl⟩

theorem adds_putText (hf : Fits con dev font) (hin : con.term.Inside) (c : Byte) :
    ∃ outs, Adds dev font con (putText con c) outs := by
  have hmove : ∀ {con : Console} (row col : UInt16), Fits con dev font →
      Adds dev font con (con.moveTo row col) [] := fun row col hf => Adds.quiet hf rfl rfl ⟨rfl, rfl, rfl, rfl⟩
  unfold putText
  dsimp only
  split_ifs
  · exact ⟨_, hmove _ _ hf⟩
  · exact ⟨_, hmove _ _ hf⟩
  · have hback : Adds dev font con (stepBack con) [] := by
      unfold stepBack
      dsimp only
      split_ifs
      · exact hmove _ _ hf
      · exact hmove _ _ hf
      · exact Adds.quiet hf rfl rfl ⟨rfl, rfl, rfl, rfl⟩
    obtain ⟨outs, hdraw⟩ := adds_renderAtCursor hback.fits (stepBack_inside hin) (ascii ' ')
    exact ⟨_, hback.trans hdraw⟩
  · exact ⟨_, (hmove _ _ hf).trans (adds_wrapLine (hmove _ _ hf).fits)⟩
  · obtain ⟨outs, hdraw⟩ := adds_renderAtCursor hf hin c
    have hstep := hdraw.trans (hmove con.term.row (con.term.col + 1) hdraw.fits)
    exact ⟨_, hstep.trans (adds_wrapLine hstep.fits)⟩
  · exact ⟨[], Adds.quiet hf rfl rfl ⟨rfl, rfl, rfl, rfl⟩⟩

theorem adds_scroll (hf : Fits con dev font) (hrows : 0 < con.term.maxRows.toNat) :
    ∃ outs, Adds dev font con (scroll con) outs := by
  unfold scroll
  dsimp only
  split_ifs
  · have hlast := hf.row le_rfl
    have hsplit : con.term.maxRows.toNat * font.height.toNat =
        (con.term.maxRows.toNat - 1) * font.height.toNat + font.height.toNat := by
      rw [← Nat.succ_mul, Nat.succ_eq_add_one, Nat.sub_add_cancel hrows]
    have hbound := (cells con.term.maxRows.toNat con.term.fontHeight).toNat_lt
    have hheight : (u16 ((cells con.term.maxRows.toNat con.term.fontHeight).toNat -
        (con.term.fontHeight.toNat : Int))).toNat = (con.term.maxRows.toNat - 1) * font.height.toNat := by
      rw [hlast, hf.fontHeight]
      have hval := @toNat_u16_of_range
        (((con.term.maxRows.toNat * font.height.toNat : Nat) : Int) - font.height.toNat) (by omega) (by omega)
      omega
    have hblit := Adds.emit hf (o := .blit 0 0 0 (u16 con.term.fontHeight.toNat) con.screenWidth
        (u16 ((cells con.term.maxRows.toNat con.term.fontHeight).toNat - (con.term.fontHeight.toNat : Int))))
      ⟨rfl, rfl, rfl, hf.cellHeight, hf.screenWidth, hheight⟩
    have hpred : ((con.term.maxRows.toNat : Int) - 1) = ((con.term.maxRows.toNat - 1 : Nat) : Int) := by omega
    have hfill := Adds.emit hblit.fits (o := .fillRect 0 (cells (con.term.maxRows.toNat - 1) con.term.fontHeight)
        con.screenWidth (u16 con.term.fontHeight.toNat) con.term.bgColor)
      ⟨con.term.maxRows.toNat - 1, 0, 1, 0, (Nat.zero_mul _).symm, by rw [hpred]; exact hf.row (by omega),
        by rw [hf.cellHeight, Nat.one_mul], Nat.one_pos, by show _ ≤ con.term.maxRows.toNat; omega,
        .inr ⟨rfl, hf.screenWidth⟩⟩
    exact ⟨_, (hblit.trans hfill).trans (Adds.quiet (hblit.trans hfill).fits rfl rfl ⟨rfl, rfl, rfl, rfl⟩)⟩
  · exact ⟨[], Adds.quiet hf rfl rfl ⟨rfl, rfl, rfl, rfl⟩⟩

theorem adds_clearRows (hf : Fits con dev font) (hrows : 0 < con.term.maxRows.toNat) (color : VbeColor) :
    Adds dev font con (con.emit
      (.fillRect 0 0 con.screenWidth (cells con.term.maxRows.toNat con.term.fontHeight) color))
      [.fillRect 0 0 con.screenWidth (cells con.term.maxRows.toNat con.term.fontHeight) color] :=
  Adds.emit hf ⟨0, 0, con.term.maxRows.toNat, 0, (Nat.zero_mul _).symm, (Nat.zero_mul _).symm,
    hf.row le_rfl, hrows,
    by omega, .inr ⟨rfl, hf.screenWidth⟩⟩

theorem adds_eraseDisplay (hf : Fits con dev font) (hin : con.term.Inside) :
    ∃ outs, Adds dev font con (eraseDisplay con) outs := by
  unfold eraseDisplay
  dsimp only
  split_ifs
  · have hclear := adds_clearRows hf (Nat.zero_lt_of_lt hin.1) con.term.bgColor
    exact ⟨_, hclear.trans (Adds.quiet hclear.fits rfl rfl ⟨rfl, rfl, rfl, rfl⟩)⟩
  · have hcol := hin.2
    have hrest : ((con.term.maxCols.toNat : Int) - con.term.col.toNat) =
        ((con.term.maxCols.toNat - con.term.col.toNat : Nat) : Int) := by omega
    rw [hrest]
    exact ⟨_, Adds.emit hf (hf.aligned_row hin.1 (by omega) (by omega) _)⟩

theorem adds_eraseLine (hf : Fits con dev font) (hin : con.term.Inside) :
    ∃ outs, Adds dev font con (eraseLine con) outs := by
  have hcol := hin.2
  have hcols := con.term.maxCols.toNat_lt
  have hrest : (con.term.maxCols - con.term.col).toNat = con.term.maxCols.toNat - con.term.col.toNat :=
    UInt16.toNat_sub_of_le _ _ (UInt16.le_iff_toNat_le.mpr hcol.le)
  have hnext : (con.term.col + 1).toNat = con.term.col.toNat + 1 := by
    rw [UInt16.toNat_add, UInt16.toNat_one, Nat.mod_eq_of_lt (by omega)]
  have hline : ∀ lx lw : UInt16, 0 < lw.toNat → lx.toNat + lw.toNat ≤ con.term.maxCols.toNat →
      ∃ outs, Adds dev font con (con.emit (.fillRect (cells lx.toNat con.term.fontWidth)
        (cells con.term.row.toNat con.term.fontHeight) (cells lw.toNat con.term.fontWidth)
        (u16 con.term.fontHeight.toNat) con.term.bgColor)) outs :=
    fun lx lw hlw hle => ⟨_, Adds.emit hf (hf.aligned_row hin.1 hlw hle _)⟩
  unfold eraseLine
  dsimp only
  split_ifs
  · exact hline con.term.col (con.term.maxCols - con.term.col) (by rw [hrest]; omega) (by rw [hrest]; omega)
  · exact hline 0 (con.term.col + 1) (by rw [hnext]; omega) (by rw [hnext, UInt16.toNat_zero]; omega)
  · exact hline 0 con.term.maxCols (by omega) (by rw [UInt16.toNat_zero]; omega)

theorem adds_setColors (hf : Fits con dev font) (fg bg : VbeColor) :
    Adds dev font con { con with term := { con.term with fgColor := fg, bgColor := bg } } [] :=
  Adds.quiet hf rfl rfl ⟨rfl, rfl, rfl, rfl⟩

/-- Colours are announced on the serial line only. -/
theorem adds_selectGraphics (ps : List Int) (hf : Fits con dev font) :
    ∃ outs, Adds dev font con (selectGraphics con ps) outs := by
  have hserial : ∀ {con : Console} {o : Output}, Fits con dev font →
      Aligned dev font con.term.maxRows.toNat con.term.maxCols.toNat o → Adds dev font con (con.emit o) [o] :=
    fun hf ho => Adds.emit hf ho
  fun_induction selectGraphics con ps with
  | case1 con => exact ⟨[], Adds.quiet hf rfl rfl ⟨rfl, rfl, rfl, rfl⟩⟩
  | case2 con rest ih =>
      have hset := adds_setColors hf vbeColorWhite vbeColorBlack
      obtain ⟨outs, hadds⟩ := ih hset.fits
      exact ⟨_, hset.trans hadds⟩
  | case3 con p rest hp hfg ih =>
      have hset := adds_setColors hf (ansiColor (p - 30)) con.term.bgColor
      obtain ⟨outs, hadds⟩ := ih hset.fits
      exact ⟨_, hset.trans hadds⟩
  | case4 con p rest hp hfg hbg ih =>
      have hset := adds_setColors hf con.term.fgColor (ansiColor (p - 40))
      obtain ⟨outs, hadds⟩ := ih hset.fits
      exact ⟨_, hset.trans hadds⟩
  | case5 con r g b rest' color hp hfg hbg hext ih =>
      have hset := adds_setColors hf color con.term.bgColor
      have hannounce := hserial (o := .serialFg color) hset.fits trivial
      obtain ⟨outs, hadds⟩ := ih hannounce.fits
      exact ⟨_, (hset.trans hannounce).trans hadds⟩
  | case6 con p hp hfg hbg hext r g b rest' color hback ih =>
      have hset := adds_setColors hf con.term.fgColor color
      have hannounce := hserial (o := .serialBg color) hset.fits trivial
      obtain ⟨outs, hadds⟩ := ih hannounce.fits
      exact ⟨_, (hset.trans hannounce).trans hadds⟩
  | case7 => exact ‹Fits _ dev font → _› hf
  | case8 => exact ‹Fits _ dev font → _› hf
  | case9 => exact ‹Fits _ dev font → _› hf

theorem adds_deviceStatus (hf : Fits con dev font) : ∃ outs, Adds dev font con (deviceStatus con) outs := by
  unfold deviceStatus
  dsimp only
  split_ifs
  · exact ⟨_, Adds.emit hf trivial⟩
  · exact ⟨[], Adds.quiet hf rfl rfl ⟨rfl, rfl, rfl, rfl⟩⟩

theorem moveCursor_moves (con : Console) (cmd : Byte) : ∃ row col, moveCursor con cmd = con.moveTo row col := by
  unfold moveCursor
  dsimp only
  split_ifs <;> exact ⟨_, _, rfl⟩

theorem adds_handleAnsiCommand (hf : Fits con dev font) (hin : con.term.Inside) (cmd : Byte) :
    ∃ outs, Adds dev font con (handleAnsiCommand con cmd) outs := by
  have hmove : ∀ row col, Adds dev font con (con.moveTo row col) [] :=
    fun _ _ => Adds.quiet hf rfl rfl ⟨rfl, rfl, rfl, rfl⟩
  by_cases hJ : cmd = ascii 'J'
  · subst hJ
    exact adds_eraseDisplay hf hin
  by_cases hK : cmd = ascii 'K'
  · subst hK
    exact adds_eraseLine hf hin
  by_cases hm : cmd = ascii 'm'
  · subst hm
    exact adds_selectGraphics _ hf
  by_cases hn : cmd = ascii 'n'
  · subst hn
    exact adds_deviceStatus hf
  · have hrest : handleAnsiCommand con cmd = saveRestore (moveCursor con cmd) cmd := by
      simp only [handleAnsiCommand, hJ, hK, hm, hn, if_false]
    have hcursor : Adds dev font con (moveCursor con cmd) [] := by
      obtain ⟨row, col, hrun⟩ := moveCursor_moves con cmd
      rw [hrun]
      exact hmove row col
    have hsave : Adds dev font (moveCursor con cmd) (saveRestore (moveCursor con cmd) cmd) [] := by
      unfold saveRestore
      dsimp only
      split_ifs
      · exact Adds.quiet hcursor.fits rfl rfl ⟨rfl, rfl, rfl, rfl⟩
      · exact Adds.quiet hcursor.fits rfl rfl ⟨rfl, rfl, rfl, rfl⟩
      · exact Adds.quiet hcursor.fits rfl rfl ⟨rfl, rfl, rfl, rfl⟩
    rw [hrest]
    exact ⟨_, hcursor.trans hsave⟩

end Geometry

end Frostix.Tty
