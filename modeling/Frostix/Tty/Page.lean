import Frostix.Libc.PrintfText
import Frostix.Tty.ScreenRun

/-!
Printed text on the screen. Text fills lines of as many columns as the terminal has, and the
screen shows the last of them, with the cursor where the next character goes. A backspace takes
the last character back, also from the line above. -/
namespace Frostix.Tty

open Machine32 ByteMemory Libc Raster Drivers

/-- The finished lines of a text, the one that is being written, and the first that is shown. -/
structure Page where
  lines : List (List Byte)
  current : List Byte
  top : Nat

def Page.blank : Page := ⟨[], [], 0⟩

def Page.written (p : Page) (c : Byte) : List Byte := if c = ascii '\n' then p.current else p.current ++ [c]

def Page.Ends (cols : Nat) (p : Page) (c : Byte) : Prop := c = ascii '\n' ∨ cols ≤ p.current.length + 1

instance (cols : Nat) (p : Page) (c : Byte) : Decidable (p.Ends cols c) := inferInstanceAs (Decidable (_ ∨ _))

/-- A character is written; the screen scrolls when there is no row for the new line. -/
def Page.feed (rows cols : Nat) (p : Page) (c : Byte) : Page :=
  if p.Ends cols c then ⟨p.lines ++ [p.written c], [], max p.top (p.lines.length + 2 - rows)⟩
  else ⟨p.lines, p.written c, p.top⟩

def textCell (fg bg : VbeColor) (text : List (List Byte)) (line col : Nat) : Cell :=
  (text.getD line [])[col]?.elim (.block bg) fun c => .glyph c fg bg

def Page.grid (fg bg : VbeColor) (p : Page) : Grid Cell := fun r c =>
  if p.top + r = p.lines.length ∧ c = p.current.length then .block fg
  else textCell fg bg (p.lines ++ [p.current]) (p.top + r) c

def Printed (c : Byte) : Prop := c = ascii '\n' ∨ 32 ≤ c.toInt

instance (c : Byte) : Decidable (Printed c) := inferInstanceAs (Decidable (_ ∨ _))

theorem textCell_end (fg bg : VbeColor) (lines : List (List Byte)) (l : List Byte) {col : Nat}
    (h : l.length ≤ col) :
    textCell fg bg (lines ++ [l]) lines.length col = .block bg := by
  simp [textCell, List.getElem?_eq_none h]

theorem textCell_last (fg bg : VbeColor) (lines : List (List Byte)) (l : List Byte) (c : Byte) :
    textCell fg bg (lines ++ [l ++ [c]]) lines.length l.length = .glyph c fg bg := by
  simp [textCell]

theorem textCell_append (fg bg : VbeColor) (lines : List (List Byte)) (l : List Byte) (c : Byte) {line col : Nat}
    (h : ¬(line = lines.length ∧ col = l.length)) :
    textCell fg bg (lines ++ [l ++ [c]]) line col = textCell fg bg (lines ++ [l]) line col := by
  unfold textCell
  rcases Nat.lt_trichotomy line lines.length with hlt | rfl | hgt
  · rw [List.getD_append _ _ _ _ hlt, List.getD_append _ _ _ _ hlt]
  · rw [List.getD_append_right _ _ _ _ le_rfl, List.getD_append_right _ _ _ _ le_rfl, Nat.sub_self,
      List.getD_cons_zero, List.getD_cons_zero]
    have hcol : col ≠ l.length := fun hcol => h ⟨rfl, hcol⟩
    rcases Nat.lt_or_gt_of_ne hcol with hlt | hgt
    · rw [List.getElem?_append_left hlt]
    · rw [List.getElem?_eq_none (by rw [List.length_append, List.length_singleton]; omega),
        List.getElem?_eq_none (by omega)]
  · rw [List.getD_eq_default _ _ (by simp; omega), List.getD_eq_default _ _ (by simp; omega)]

theorem textCell_newline (fg bg : VbeColor) (text : List (List Byte)) (line col : Nat) :
    textCell fg bg (text ++ [[]]) line col = textCell fg bg text line col := by
  unfold textCell
  by_cases hlt : line < text.length
  · rw [List.getD_append _ _ _ _ hlt]
  · rw [List.getD_append_right _ _ _ _ (by omega), List.getD_eq_default text _ (by omega)]
    cases line - text.length <;> rfl

variable {fg bg : VbeColor} {rows cols : Nat} {g : Grid Cell}

def textGrid (fg bg : VbeColor) (text : List (List Byte)) (top : Nat) : Grid Cell := fun r c =>
  textCell fg bg text (top + r) c

theorem setTiles_one (g : Grid Cell) (row col : Nat) (k : Cell) (r c : Nat) :
    setTiles g row col 1 1 k r c = if r = row ∧ c = col then k else g r c := by
  unfold setTiles
  exact if_congr (by omega) rfl rfl

theorem same_cursor_off {p : Page} {row : Nat} (hrow : p.top + row = p.lines.length)
    (h : SameTiles rows cols g (p.grid fg bg)) :
    SameTiles rows cols (setTiles g row p.current.length 1 1 (.block bg))
      (textGrid fg bg (p.lines ++ [p.current]) p.top) := by
  intro r hr c hc
  rw [setTiles_one, textGrid]
  split_ifs with hcell
  · obtain ⟨rfl, rfl⟩ := hcell
    rw [hrow, textCell_end fg bg p.lines p.current le_rfl]
  · rw [h r hr c hc, Page.grid, if_neg]
    exact fun hat => hcell ⟨by omega, hat.2⟩

theorem same_glyph {p : Page} {row : Nat} (hrow : p.top + row = p.lines.length)
    (h : SameTiles rows cols g (textGrid fg bg (p.lines ++ [p.current]) p.top)) (c : Byte) :
    SameTiles rows cols (setTiles g row p.current.length 1 1 (.glyph c fg bg))
      (textGrid fg bg (p.lines ++ [p.current ++ [c]]) p.top) := by
  intro r hr col hcol
  rw [setTiles_one, textGrid]
  split_ifs with hcell
  · obtain ⟨rfl, rfl⟩ := hcell
    rw [hrow, textCell_last]
  · rw [h r hr col hcol, textGrid, textCell_append]
    exact fun hat => hcell ⟨by omega, hat.2⟩

theorem same_cursor_on {p : Page} {row : Nat} (hrow : p.top + row = p.lines.length) {k : Cell}
    (h : SameTiles rows cols g
      (setTiles (textGrid fg bg (p.lines ++ [p.current]) p.top) row p.current.length 1 1 k)) :
    SameTiles rows cols (setTiles g row p.current.length 1 1 (.block fg)) (p.grid fg bg) := by
  intro r hr c hc
  rw [setTiles_one, Page.grid, h r hr c hc, setTiles_one, textGrid]
  by_cases hcell : r = row ∧ c = p.current.length
  · rw [if_pos hcell, if_pos ⟨by omega, hcell.2⟩]
  · rw [if_neg hcell, if_neg hcell, if_neg (fun hat => hcell ⟨by omega, hat.2⟩)]

theorem same_end {p : Page} {row : Nat} (hrow : p.top + row = p.lines.length)
    (h : SameTiles rows cols g (textGrid fg bg (p.lines ++ [p.current]) p.top)) :
    SameTiles rows cols g
      (setTiles (textGrid fg bg (p.lines ++ [p.current]) p.top) row p.current.length 1 1 (.block bg)) := by
  intro r hr c hc
  rw [h r hr c hc, setTiles_one]
  split_ifs with hcell
  · obtain ⟨rfl, rfl⟩ := hcell
    rw [textGrid, hrow, textCell_end fg bg p.lines p.current le_rfl]
  · rfl

theorem same_next_row {lines : List (List Byte)} {l : List Byte} {top : Nat}
    (h : SameTiles rows cols g (textGrid fg bg (lines ++ [l]) top)) :
    SameTiles rows cols g (textGrid fg bg (lines ++ [l] ++ [[]]) top) := by
  intro r hr c hc
  rw [h r hr c hc, textGrid, textGrid, textCell_newline]

theorem same_scrolled {lines : List (List Byte)} {l : List Byte} {top k : Nat} (hrows : 0 < rows)
    (hlast : top + rows = lines.length + 1) (hk : cols ≤ k)
    (h : SameTiles rows cols g (textGrid fg bg (lines ++ [l]) top)) :
    SameTiles rows cols (setTiles (shiftUp g rows) (rows - 1) 0 1 k (.block bg))
      (textGrid fg bg (lines ++ [l] ++ [[]]) (top + 1)) := by
  intro r hr c hc
  rw [textGrid, setTiles]
  by_cases hbottom : r = rows - 1
  · have hline : top + 1 + r = (lines ++ [l]).length := by
      rw [List.length_append, List.length_singleton]
      omega
    rw [if_pos (by omega), hline, textCell_end fg bg (lines ++ [l]) [] (Nat.zero_le c)]
  · rw [if_neg (by omega), shiftUp, if_pos (by omega), h (r + 1) (by omega) c hc, textGrid, textCell_newline]
    congr 1
    omega

variable {dev : VbeDevice} {font : Font} {con con₁ con₂ : Console} {p : Page}

def Redraws (font : Font) (rows cols : Nat) (con con' : Console) (before after : Grid Cell) :
    Prop :=
  ∃ outs, con'.output = con.output ++ outs ∧
    ∀ g, SameTiles rows cols g before → SameTiles rows cols (outs.foldl (cellDisplay font rows) g) after

theorem Redraws.trans {grid₀ grid₁ grid₂ : Grid Cell} (h : Redraws font rows cols con con₁ grid₀ grid₁)
    (h' : Redraws font rows cols con₁ con₂ grid₁ grid₂) : Redraws font rows cols con con₂ grid₀ grid₂ := by
  obtain ⟨outs, hout, hsame⟩ := h
  obtain ⟨outs', hout', hsame'⟩ := h'
  refine ⟨outs ++ outs', by rw [hout', hout, List.append_assoc], fun g hg => ?_⟩
  rw [List.foldl_append]
  exact hsame' _ (hsame g hg)

theorem Redraws.quiet {grid₀ grid₁ : Grid Cell} (hout : con₁.output = con.output)
    (h : ∀ g, SameTiles rows cols g grid₀ → SameTiles rows cols g grid₁) :
    Redraws font rows cols con con₁ grid₀ grid₁ := ⟨[], by rw [hout, List.append_nil], h⟩

theorem Redraws.emit {grid₀ grid₁ : Grid Cell} {o : Output} (hout : con₁.output = con.output ++ [o])
    (h : ∀ g, SameTiles rows cols g grid₀ → SameTiles rows cols (cellDisplay font rows g o) grid₁) :
    Redraws font rows cols con con₁ grid₀ grid₁ := ⟨[o], hout, h⟩

structure PageAt (dev : VbeDevice) (font : Font) (con : Console) (p : Page) : Prop where
  fits : Fits con dev font
  row : p.top + con.term.row.toNat = p.lines.length
  below : con.term.row.toNat < con.term.maxRows.toNat
  col : con.term.col.toNat = p.current.length
  short : p.current.length < con.term.maxCols.toNat
  normal : con.term.ansiCtx.state = .normal
  enabled : con.term.ansiCtx.cursorEnabled = true

theorem PageAt.inside (h : PageAt dev font con p) : con.term.Inside := ⟨h.below, h.col ▸ h.short⟩

theorem redraws_cursor_off (h : PageAt dev font con p) (hvisible : con.cursorVisible = true) :
    Redraws font con.term.maxRows.toNat con.term.maxCols.toNat con (terminalToggleCursor con)
      (p.grid con.term.fgColor con.term.bgColor)
      (textGrid con.term.fgColor con.term.bgColor (p.lines ++ [p.current]) p.top) := by
  rw [toggleCursor_eq h.enabled, hvisible]
  refine Redraws.emit rfl fun g hg => ?_
  rw [cellDisplay_cursorRect h.fits h.inside.1 h.inside.2, h.col]
  exact same_cursor_off h.row hg

theorem redraws_cursor_on (h : PageAt dev font con p) (hvisible : con.cursorVisible = false) (k : Cell) :
    Redraws font con.term.maxRows.toNat con.term.maxCols.toNat con (terminalToggleCursor con)
      (setTiles (textGrid con.term.fgColor con.term.bgColor (p.lines ++ [p.current]) p.top) con.term.row.toNat
        p.current.length 1 1 k)
      (p.grid con.term.fgColor con.term.bgColor) := by
  rw [toggleCursor_eq h.enabled, hvisible]
  refine Redraws.emit rfl fun g hg => ?_
  rw [cellDisplay_cursorRect h.fits h.inside.1 h.inside.2, h.col]
  exact same_cursor_on h.row hg

theorem redraws_glyph (h : PageAt dev font con p) (c : Byte) :
    Redraws font con.term.maxRows.toNat con.term.maxCols.toNat con (renderAtCursor con c)
      (textGrid con.term.fgColor con.term.bgColor (p.lines ++ [p.current]) p.top)
      (textGrid con.term.fgColor con.term.bgColor (p.lines ++ [p.current ++ [c]]) p.top) := by
  refine Redraws.emit rfl fun g hg => ?_
  rw [cellDisplay, h.fits.column h.inside.2.le, h.fits.row h.inside.1.le, Nat.mul_div_cancel _ font.width_range.1,
    Nat.mul_div_cancel _ font.height_range.1, h.col]
  exact same_glyph h.row hg c

/-- Where a character leaves the cursor, before the screen scrolls. -/
theorem putText_page (h : PageAt dev font con p) {c : Byte} (hc : Printed c) :
    ∃ row col, (putText con c).term = { con.term with row, col } ∧
      (putText con c).screenWidth = con.screenWidth ∧ (putText con c).cursorVisible = con.cursorVisible ∧
      (if p.Ends con.term.maxCols.toNat c then row.toNat = con.term.row.toNat + 1 ∧ col = 0
        else row = con.term.row ∧ col.toNat = (p.written c).length) ∧
      Redraws font con.term.maxRows.toNat con.term.maxCols.toNat con (putText con c)
        (textGrid con.term.fgColor con.term.bgColor (p.lines ++ [p.current]) p.top)
        (textGrid con.term.fgColor con.term.bgColor (p.lines ++ [p.written c]) p.top) := by
  have hcols := con.term.maxCols.toNat_lt
  have hrows := con.term.maxRows.toNat_lt
  have hrow := h.inside.1
  have hdown : (con.term.row + 1).toNat = con.term.row.toNat + 1 := by
    rw [UInt16.toNat_add, UInt16.toNat_one, Nat.mod_eq_of_lt (by omega)]
  by_cases hnl : c = ascii '\n'
  · subst hnl
    have hput : putText con (ascii '\n') = con.moveTo (con.term.row + 1) 0 := by
      unfold putText
      rw [if_pos rfl]
    have hends : p.Ends con.term.maxCols.toNat (ascii '\n') := .inl rfl
    rw [hput]
    refine ⟨_, _, rfl, rfl, rfl, ?_, Redraws.quiet rfl fun g hg => hg⟩
    rw [if_pos hends]
    exact ⟨hdown, rfl⟩
  · have hprint : 32 ≤ c.toInt := hc.resolve_left hnl
    have hput : putText con c = wrapLine ((renderAtCursor con c).moveTo con.term.row (con.term.col + 1)) := by
      have hcontrol : ∀ d : Byte, d = ascii '\r' ∨ d = 8#8 ∨ d = ascii '\t' → c ≠ d := by
        rintro d hd rfl
        revert hd hprint
        rintro hprint (rfl | rfl | rfl) <;> exact absurd hprint (by decide)
      unfold putText
      dsimp only
      rw [if_neg hnl, if_neg (hcontrol _ (.inl rfl)), if_neg (hcontrol _ (.inr (.inl rfl))),
        if_neg (hcontrol _ (.inr (.inr rfl))), if_pos hprint]
    have hright : (con.term.col + 1).toNat = con.term.col.toNat + 1 := by
      have hcol := h.inside.2
      rw [UInt16.toNat_add, UInt16.toNat_one, Nat.mod_eq_of_lt (by omega)]
    have hwritten : p.written c = p.current ++ [c] := if_neg hnl
    have hends : p.Ends con.term.maxCols.toNat c ↔ con.term.maxCols ≤ con.term.col + 1 := by
      rw [UInt16.le_iff_toNat_le, hright, h.col]
      exact or_iff_right hnl
    have hdraw := redraws_glyph h c
    rw [hput, hwritten]
    by_cases hend : con.term.maxCols ≤ con.term.col + 1
    · have hwrap : wrapLine ((renderAtCursor con c).moveTo con.term.row (con.term.col + 1)) =
          ((renderAtCursor con c).moveTo con.term.row (con.term.col + 1)).moveTo (con.term.row + 1) 0 :=
            if_pos hend
      rw [hwrap]
      refine ⟨_, _, rfl, rfl, rfl, ?_, hdraw.trans (Redraws.quiet rfl fun g hg => hg)⟩
      rw [if_pos (hends.mpr hend)]
      exact ⟨hdown, rfl⟩
    · have hwrap : wrapLine ((renderAtCursor con c).moveTo con.term.row (con.term.col + 1)) =
          (renderAtCursor con c).moveTo con.term.row (con.term.col + 1) := if_neg hend
      rw [hwrap]
      refine ⟨_, _, rfl, rfl, rfl, ?_, hdraw.trans (Redraws.quiet rfl fun g hg => hg)⟩
      rw [if_neg (mt hends.mp hend)]
      exact ⟨rfl, by rw [hright, h.col, List.length_append, List.length_singleton]⟩

theorem redraws_scroll (hf : Fits con dev font) (hrows : 0 < con.term.maxRows.toNat)
    (hrow : con.term.row.toNat = con.term.maxRows.toNat) {lines : List (List Byte)} {l : List Byte} {top : Nat}
    (hlast : top + con.term.maxRows.toNat = lines.length + 1) :
    (scroll con).term = { con.term with row := con.term.maxRows - 1 } ∧
    (scroll con).screenWidth = con.screenWidth ∧
      (scroll con).cursorVisible = con.cursorVisible ∧
      Redraws font con.term.maxRows.toNat con.term.maxCols.toNat con (scroll con)
        (textGrid con.term.fgColor con.term.bgColor (lines ++ [l]) top)
        (textGrid con.term.fgColor con.term.bgColor (lines ++ [l] ++ [[]]) (top + 1)) := by
  have hscroll : con.term.maxRows ≤ con.term.row := by
    rw [UInt16.le_iff_toNat_le, hrow]
  have hpred : ((con.term.maxRows.toNat : Int) - 1) = ((con.term.maxRows.toNat - 1 : Nat) : Int) := by omega
  have hwide : con.term.maxCols.toNat ≤ dev.width.toNat / font.width.toNat :=
    (Nat.le_div_iff_mul_le font.width_range.1).mpr hf.columns
  unfold scroll
  dsimp only
  rw [if_pos hscroll]
  refine ⟨rfl, rfl, rfl, ⟨_, List.append_assoc _ _ _, fun g hg => ?_⟩⟩
  have hsame := same_scrolled hrows hlast hwide hg
  simp only [List.nil_append, List.cons_append, List.foldl_cons, List.foldl_nil, cellDisplay, hpred,
    hf.row (Nat.sub_le _ 1), hf.cellHeight,
    hf.screenWidth, UInt16.toNat_zero, Nat.zero_div, Nat.mul_div_cancel _ font.height_range.1,
    Nat.div_self font.height_range.1]
  exact hsame

/-- The screen is brought back to the page that a character leaves. -/
theorem scroll_page (h : PageAt dev font con p) {c : Byte} {con₁ : Console} {row col : UInt16}
    (hf : Fits con₁ dev font) (hterm : con₁.term = { con.term with row, col })
    (hcursor : if p.Ends con.term.maxCols.toNat c then row.toNat = con.term.row.toNat + 1 ∧ col = 0
      else row = con.term.row ∧ col.toNat = (p.written c).length) :
    let q := p.feed con.term.maxRows.toNat con.term.maxCols.toNat c
    PageAt dev font (scroll con₁) q ∧ (∃ row', (scroll con₁).term = { con.term with row := row', col }) ∧
      (scroll con₁).cursorVisible = con₁.cursorVisible ∧
      Redraws font con.term.maxRows.toNat con.term.maxCols.toNat con₁ (scroll con₁)
        (textGrid con.term.fgColor con.term.bgColor (p.lines ++ [p.written c]) p.top)
        (textGrid con.term.fgColor con.term.bgColor (q.lines ++ [q.current]) q.top) := by
  intro q
  have hrow := h.row
  have hbelow := h.below
  have hrows := Nat.zero_lt_of_lt hbelow
  have hnormal : con₁.term.ansiCtx.state = .normal := by
    rw [hterm]
    exact h.normal
  have hon : con₁.term.ansiCtx.cursorEnabled = true := by
    rw [hterm]
    exact h.enabled
  have hlines : (p.lines ++ [p.written c]).length = p.lines.length + 1 := by
    rw [List.length_append, List.length_singleton]
  by_cases hends : p.Ends con.term.maxCols.toNat c
  · rw [if_pos hends] at hcursor
    obtain ⟨hdown, rfl⟩ := hcursor
    have hfeed : q = ⟨p.lines ++ [p.written c], [], max p.top (p.lines.length + 2 - con.term.maxRows.toNat)⟩ :=
      if_pos hends
    rw [hfeed]
    by_cases hleft : row.toNat < con.term.maxRows.toNat
    · have hstay : scroll con₁ = con₁ := if_neg (by rw [hterm, UInt16.le_iff_toNat_le]; exact not_le.mpr hleft)
      have htop : max p.top (p.lines.length + 2 - con.term.maxRows.toNat) = p.top := by omega
      rw [hstay, htop]
      refine ⟨⟨hf, ?_, ?_, ?_, ?_, hnormal, hon⟩, ⟨row, hterm⟩, rfl,
        Redraws.quiet rfl fun g hg => same_next_row hg⟩ <;>
        rw [hterm]
      · dsimp only
        omega
      · exact hleft
      · exact UInt16.toNat_zero
      · exact Nat.zero_lt_of_lt h.short
    · have hlast : p.top + con.term.maxRows.toNat = p.lines.length + 1 := by omega
      have htop : max p.top (p.lines.length + 2 - con.term.maxRows.toNat) = p.top + 1 := by omega
      have hscrolled := @redraws_scroll _ _ _ hf (by rw [hterm]; exact hrows) (by rw [hterm]; dsimp only; omega)
        p.lines (p.written c) p.top (by rw [hterm]; exact hlast)
      rw [hterm] at hscrolled
      obtain ⟨hterm', hwidth, hvisible, hdraw⟩ := hscrolled
      have hpred : (con.term.maxRows - 1).toNat = con.term.maxRows.toNat - 1 := toNat_pred hrows
      rw [htop]
      refine ⟨⟨⟨?_, ?_, ?_, ?_, ?_⟩, ?_, ?_, ?_, ?_, ?_, ?_⟩, ⟨_, hterm'⟩, hvisible, hdraw⟩
      · rw [hterm']; exact h.fits.fontWidth
      · rw [hterm']; exact h.fits.fontHeight
      · exact hwidth.trans hf.screenWidth
      · rw [hterm']; exact h.fits.columns
      · rw [hterm']; exact h.fits.rows
      · rw [hterm']
        dsimp only
        omega
      · rw [hterm']
        dsimp only
        omega
      · rw [hterm']; exact UInt16.toNat_zero
      · rw [hterm']; exact Nat.zero_lt_of_lt h.short
      · rw [hterm']; exact h.normal
      · rw [hterm']; exact h.enabled
  · rw [if_neg hends] at hcursor
    obtain ⟨rfl, hcol⟩ := hcursor
    have hfeed : q = ⟨p.lines, p.written c, p.top⟩ := if_neg hends
    have hstay : scroll con₁ = con₁ :=
      if_neg (by rw [hterm, UInt16.le_iff_toNat_le]; exact not_le.mpr hbelow)
    have hshort : (p.written c).length < con.term.maxCols.toNat := by
      obtain ⟨hnl, hroom⟩ := not_or.mp hends
      rw [Page.written, if_neg hnl, List.length_append, List.length_singleton]
      omega
    rw [hfeed, hstay]
    refine ⟨⟨hf, ?_, ?_, ?_, ?_, hnormal, hon⟩, ⟨_, hterm⟩, rfl, Redraws.quiet rfl fun g hg => hg⟩ <;> rw [hterm]
    · exact hrow
    · exact hbelow
    · exact hcol
    · exact hshort

theorem PageAt.toggle (h : PageAt dev font con p) : PageAt dev font (terminalToggleCursor con) p := by
  have hterm : (terminalToggleCursor con).term = con.term := terminalToggleCursor_term con
  obtain ⟨outs, hadds⟩ := adds_toggleCursor h.fits h.inside
  refine ⟨hadds.fits, ?_, ?_, ?_, ?_, ?_, ?_⟩ <;> rw [hterm]
  · exact h.row
  · exact h.below
  · exact h.col
  · exact h.short
  · exact h.normal
  · exact h.enabled

/-- The terminal goes on from one page to another, with the cursor shown. -/
structure Turned (dev : VbeDevice) (font : Font) (con : Console) (p : Page) (con' : Console)
    (p' : Page) : Prop where
  page : PageAt dev font con' p'
  visible : con'.cursorVisible = true
  term : ∃ row col, con'.term = { con.term with row, col }
  adds : ∃ outs, Adds dev font con con' outs
  redraws : Redraws font con.term.maxRows.toNat con.term.maxCols.toNat con con'
    (p.grid con.term.fgColor con.term.bgColor) (p'.grid con.term.fgColor con.term.bgColor)

theorem Turned.refl (h : PageAt dev font con p) (hvisible : con.cursorVisible = true) :
    Turned dev font con p con p where
  page := h
  visible := hvisible
  term := ⟨con.term.row, con.term.col, rfl⟩
  adds := ⟨[], Adds.quiet h.fits rfl rfl ⟨rfl, rfl, rfl, rfl⟩⟩
  redraws := Redraws.quiet rfl fun _ hg => hg

theorem Turned.trans {p₁ p₂ : Page} (h : Turned dev font con p con₁ p₁) (h' : Turned dev font con₁ p₁ con₂ p₂) :
    Turned dev font con p con₂ p₂ := by
  obtain ⟨hpage, hvisible, ⟨row', col', hterm'⟩, ⟨outs', hadds'⟩, hdraw'⟩ := h'
  obtain ⟨-, -, ⟨row, col, hterm⟩, ⟨outs, hadds⟩, hdraw⟩ := h
  rw [hterm] at hterm' hdraw'
  exact ⟨hpage, hvisible, ⟨row', col', hterm'⟩, ⟨_, hadds.trans hadds'⟩, hdraw.trans hdraw'⟩

theorem Turned.shows (hp : Plain dev) {p' : Page} (hf : Fits con dev font) (hin : con.term.Inside)
    (h : Turned dev font con p con₁ p') :
    ∃ outs, con₁.output = con.output ++ outs ∧ ∀ (fb : Mem) (g : Grid Cell),
      SameTiles con.term.maxRows.toNat con.term.maxCols.toNat g (p.grid con.term.fgColor con.term.bgColor) →
      Shows (dev.canvas fb) (cellTile dev font) font.width.toNat font.height.toNat con.term.maxRows.toNat
        con.term.maxCols.toNat g →
      Shows (dev.canvas (outs.foldl (display dev font) fb)) (cellTile dev font) font.width.toNat font.height.toNat
        con.term.maxRows.toNat con.term.maxCols.toNat (p'.grid con.term.fgColor con.term.bgColor) := by
  obtain ⟨-, -, -, ⟨outs, hadds⟩, outs', hout', hsame⟩ := h
  obtain rfl : outs = outs' := List.append_cancel_left (hadds.output.symm.trans hout')
  refine ⟨outs, hadds.output, fun fb g hg hshows => ?_⟩
  have hdrawn := displays_aligned hp hf.columns hf.rows (Nat.zero_lt_of_lt hin.1) (Nat.zero_lt_of_lt hin.2)
    hadds.aligned fb
  exact (hdrawn.shows g hshows).congr font.width_range.1 font.height_range.1 (hsame g hg)

theorem turned_of_hidden (h : PageAt dev font con p)
    (hvisible : con.cursorVisible = true) {con₃ : Console} {q : Page}
    {k : Cell} (hpage : PageAt dev font con₃ q) (hcursor : con₃.cursorVisible = false)
    (hterm : ∃ row col, con₃.term = { con.term with row, col })
    (hadds : ∃ outs, Adds dev font (terminalToggleCursor con) con₃ outs)
    (hdraw : Redraws font con.term.maxRows.toNat con.term.maxCols.toNat (terminalToggleCursor con) con₃
      (textGrid con.term.fgColor con.term.bgColor (p.lines ++ [p.current]) p.top)
      (setTiles (textGrid con.term.fgColor con.term.bgColor (q.lines ++ [q.current]) q.top) con₃.term.row.toNat
        q.current.length 1 1 k)) :
    Turned dev font con p (terminalToggleCursor con₃) q := by
  obtain ⟨row, col, hterm⟩ := hterm
  obtain ⟨_, hadds⟩ := hadds
  obtain ⟨_, hadds₁⟩ := adds_toggleCursor h.fits h.inside
  obtain ⟨_, hadds₄⟩ := adds_toggleCursor hpage.fits hpage.inside
  have hshown := redraws_cursor_on hpage hcursor k
  rw [hterm] at hshown hdraw
  refine ⟨hpage.toggle, ?_, ⟨row, col, by rw [terminalToggleCursor_term, hterm]⟩,
    ⟨_, (hadds₁.trans hadds).trans hadds₄⟩, ((redraws_cursor_off h hvisible).trans hdraw).trans hshown⟩
  rw [toggleCursor_eq hpage.enabled, hcursor]
  rfl

theorem toggle_hides (h : PageAt dev font con p) (hvisible : con.cursorVisible = true) :
    (terminalToggleCursor con).cursorVisible = false := by
  rw [toggleCursor_eq h.enabled, hvisible]
  rfl

theorem putchar_unescaped (h : PageAt dev font con p) {c : Byte} (hc : c ≠ 27#8) :
    terminalPutchar con c = .ok (terminalToggleCursor (scroll (putText (terminalToggleCursor con) c))) := by
  rw [terminalPutchar, if_pos h.normal, if_neg hc]
  rfl

theorem putchar_page (h : PageAt dev font con p) (hvisible : con.cursorVisible = true) {c : Byte}
    (hc : Printed c) :
    ∃ con', terminalPutchar con c = .ok con' ∧
      Turned dev font con p con' (p.feed con.term.maxRows.toNat con.term.maxCols.toNat c) := by
  have hesc : c ≠ 27#8 := by
    rintro rfl
    exact absurd hc (by decide)
  have hoff : (terminalToggleCursor con).term = con.term := terminalToggleCursor_term con
  -- the character is drawn without the cursor
  obtain ⟨row, col, hterm₂, hwidth₂, hvisible₂, hcursor, hdraw₂⟩ := putText_page h.toggle hc
  obtain ⟨_, hadds₂⟩ := adds_putText h.toggle.fits h.toggle.inside c
  obtain ⟨_, hadds₃⟩ := adds_scroll hadds₂.fits (by rw [hterm₂, hoff]; exact Nat.zero_lt_of_lt h.below)
  rw [hoff] at hterm₂ hcursor hdraw₂
  obtain ⟨hpage₃, ⟨row', hterm₃⟩, hvisible₃, hdraw₃⟩ := scroll_page h hadds₂.fits hterm₂ hcursor
  refine ⟨_, putchar_unescaped h hesc, turned_of_hidden h hvisible hpage₃ ?_ ⟨row', col, hterm₃⟩ ⟨_, hadds₂.trans hadds₃⟩
    ((hdraw₂.trans hdraw₃).trans (Redraws.quiet rfl fun g hg => same_end hpage₃.row hg))⟩
  rw [hvisible₃, hvisible₂, toggle_hides h hvisible]

theorem print_page {text : List Byte} (htext : ∀ c ∈ text, Printed c) : ∀ {con : Console} {p : Page},
    PageAt dev font con p → con.cursorVisible = true →
    ∃ con', text.foldlM terminalPutchar con = .ok con' ∧
      Turned dev font con p con' (text.foldl (Page.feed con.term.maxRows.toNat con.term.maxCols.toNat) p) := by
  induction text with
  | nil => exact fun h hvisible => ⟨_, rfl, Turned.refl h hvisible⟩
  | cons c text ih =>
      intro con p h hvisible
      obtain ⟨con₁, hrun, hturned⟩ := putchar_page h hvisible (htext c List.mem_cons_self)
      obtain ⟨con', hruns, hturned'⟩ :=
        ih (fun d hd => htext d (List.mem_cons_of_mem c hd)) hturned.page hturned.visible
      obtain ⟨row, col, hterm⟩ := hturned.term
      rw [hterm] at hturned'
      exact ⟨con', by rw [List.foldlM_cons, hrun]; exact hruns, hturned.trans hturned'⟩

theorem feed_flatten (rows cols : Nat) (text : List Byte) : ∀ p : Page,
    ((text.foldl (Page.feed rows cols) p).lines ++ [(text.foldl (Page.feed rows cols) p).current]).flatten =
      (p.lines ++ [p.current]).flatten ++ text.filter (· != ascii '\n') := by
  induction text with
  | nil => simp
  | cons c text ih =>
      intro p
      have hone : ((p.feed rows cols c).lines ++ [(p.feed rows cols c).current]).flatten =
          (p.lines ++ [p.current]).flatten ++ [c].filter (· != ascii '\n') := by
        unfold Page.feed Page.written
        by_cases hnl : c = ascii '\n'
        · simp [hnl, Page.Ends]
        · split_ifs <;> simp [hnl]
      rw [List.foldl_cons, ih, hone, List.append_assoc, ← List.filter_append, List.singleton_append]

def Page.shift (p : Page) (top : Nat) : Page := { p with top }

theorem Page.feed_shift (rows cols top : Nat) (p : Page) (c : Byte) :
    (p.shift top).feed rows cols c = (p.feed rows cols c).shift ((p.shift top).feed rows cols c).top := by
  have hends : (p.shift top).Ends cols c ↔ p.Ends cols c := Iff.rfl
  unfold Page.feed
  by_cases h : p.Ends cols c
  · rw [if_pos h, if_pos (hends.mpr h)]
    rfl
  · rw [if_neg h, if_neg (mt hends.mp h)]
    rfl

theorem textCell_taken {c : Byte} (hc : c ≠ ascii '\n') (q : Page) {line col : Nat}
    (h : ¬(line = q.lines.length ∧ col = q.current.length)) :
    textCell fg bg ((q.feed rows cols c).lines ++ [(q.feed rows cols c).current]) line col =
      textCell fg bg (q.lines ++ [q.current]) line col := by
  have hwritten : q.written c = q.current ++ [c] := if_neg hc
  unfold Page.feed
  split_ifs
  · rw [textCell_newline, hwritten, textCell_append fg bg q.lines q.current c h]
  · rw [hwritten, textCell_append fg bg q.lines q.current c h]

/-- `\b` stands again where the last character was written. -/
theorem stepBack_page {q : Page} {c : Byte} (hc : c ≠ ascii '\n')
    (hshort : q.current.length < con.term.maxCols.toNat)
    (h : PageAt dev font con (q.feed con.term.maxRows.toNat con.term.maxCols.toNat c))
    (hseen : (q.feed con.term.maxRows.toNat con.term.maxCols.toNat c).top ≤ q.lines.length) :
    ∃ row col, stepBack con = con.moveTo row col ∧ col.toNat = q.current.length ∧
      (q.feed con.term.maxRows.toNat con.term.maxCols.toNat c).top + row.toNat = q.lines.length ∧
      row.toNat < con.term.maxRows.toNat := by
  have hrow := h.row
  have hcol := h.col
  have hbelow := h.below
  have hwritten : q.written c = q.current ++ [c] := if_neg hc
  unfold stepBack
  dsimp only
  by_cases hends : q.Ends con.term.maxCols.toNat c
  · have hfull : con.term.maxCols.toNat ≤ q.current.length + 1 := hends.resolve_left hc
    unfold Page.feed at hrow hcol hseen ⊢
    rw [if_pos hends] at hrow hcol hseen ⊢
    rw [List.length_append, List.length_singleton] at hrow
    rw [List.length_nil] at hcol
    have hleft : ¬0 < con.term.col := by
      rw [UInt16.lt_iff_toNat_lt, hcol]
      exact Nat.lt_irrefl 0
    have hup : 0 < con.term.row := by
      rw [UInt16.lt_iff_toNat_lt, UInt16.toNat_zero]
      omega
    rw [if_neg hleft, if_pos hup]
    have hpred := toNat_pred (UInt16.lt_iff_toNat_lt.mp hup)
    refine ⟨_, _, rfl, ?_, ?_, ?_⟩
    · rw [toNat_pred (Nat.zero_lt_of_lt hshort)]
      omega
    · rw [hpred]
      dsimp only at hrow hseen ⊢
      omega
    · rw [hpred]
      omega
  · unfold Page.feed at hrow hcol hseen ⊢
    rw [if_neg hends] at hrow hcol hseen ⊢
    rw [hwritten, List.length_append, List.length_singleton] at hcol
    have hleft : 0 < con.term.col := by
      rw [UInt16.lt_iff_toNat_lt, hcol, UInt16.toNat_zero]
      omega
    rw [if_pos hleft]
    refine ⟨_, _, rfl, ?_, hrow, hbelow⟩
    rw [toNat_pred (UInt16.lt_iff_toNat_lt.mp hleft)]
    omega

/-- `\b` brings back the page before the last character, as long as its line is on the screen. -/
theorem backspace_page {q : Page} {c : Byte} (hc : c ≠ ascii '\n')
    (hshort : q.current.length < con.term.maxCols.toNat)
    (h : PageAt dev font con (q.feed con.term.maxRows.toNat con.term.maxCols.toNat c))
    (hvisible : con.cursorVisible = true)
    (hseen : (q.feed con.term.maxRows.toNat con.term.maxCols.toNat c).top ≤ q.lines.length) :
    let p := q.feed con.term.maxRows.toNat con.term.maxCols.toNat c
    ∃ con', terminalPutchar con 8#8 = .ok con' ∧ Turned dev font con p con' (q.shift p.top) := by
  intro p
  have hoff : (terminalToggleCursor con).term = con.term := terminalToggleCursor_term con
  have hback := @stepBack_page dev font (terminalToggleCursor con) q c hc
  rw [hoff] at hback
  obtain ⟨row, col, hback, hcol, hrow, hbelow⟩ := hback hshort h.toggle hseen
  have hput : putText (terminalToggleCursor con) 8#8 =
      renderAtCursor ((terminalToggleCursor con).moveTo row col) (ascii ' ') := by
    rw [← hback]
    rfl
  obtain ⟨_, hadds⟩ := adds_putText h.toggle.fits h.toggle.inside 8#8
  have hterm : (putText (terminalToggleCursor con) 8#8).term = { con.term with row, col } := by
    rw [hput, ← hoff]
    rfl
  have hstay : scroll (putText (terminalToggleCursor con) 8#8) = putText (terminalToggleCursor con) 8#8 :=
    if_neg (by rw [hterm, UInt16.le_iff_toNat_le]; exact not_le.mpr hbelow)
  have hpage : PageAt dev font (putText (terminalToggleCursor con) 8#8) (q.shift p.top) := by
    refine ⟨hadds.fits, ?_, ?_, ?_, ?_, ?_, ?_⟩ <;> rw [hterm]
    · exact hrow
    · exact hbelow
    · exact hcol
    · exact hshort
    · exact h.normal
    · exact h.enabled
  refine ⟨_, putchar_unescaped h (by decide), ?_⟩
  rw [hstay]
  refine turned_of_hidden h hvisible (k := .glyph (ascii ' ') con.term.fgColor con.term.bgColor) hpage ?_
    ⟨row, col, hterm⟩
    ⟨_, hadds⟩ ?_
  · rw [hput]
    exact toggle_hides h hvisible
  · rw [hput]
    refine Redraws.emit rfl fun g hg => ?_
    have hcell : cellDisplay font con.term.maxRows.toNat g (.renderChar (ascii ' ')
        (cells col.toNat con.term.fontWidth) (cells row.toNat con.term.fontHeight) con.term.fgColor con.term.bgColor) =
        setTiles g row.toNat col.toNat 1 1 (.glyph (ascii ' ') con.term.fgColor con.term.bgColor) := by
      rw [cellDisplay, h.fits.column (hcol ▸ hshort.le), h.fits.row hbelow.le,
        Nat.mul_div_cancel _ font.width_range.1, Nat.mul_div_cancel _ font.height_range.1]
    dsimp only [Console.moveTo]
    rw [hoff, hcell]
    intro r hr k hk
    rw [hcol, setTiles_one]
    show _ = setTiles _ row.toNat q.current.length 1 1 _ r k
    rw [setTiles_one]
    split_ifs with hat
    · rfl
    · rw [hg r hr k hk]
      exact textCell_taken hc q fun hline => hat ⟨by omega, hline.2⟩

/-- `_putchar`, the hook of `printf`, with the bytes that go out on the serial line. -/
def kernelPutchar (state : Except Overrun (Console × List Byte)) (c : Byte) :
    Except Overrun (Console × List Byte) := do
  let (con, serial) ← state
  let con ← terminalPutchar con c
  return (con, serial ++ [c])

theorem kernelPutchar_run {con' : Console} (text : List Byte) : ∀ {con : Console} (serial : List Byte),
    text.foldlM terminalPutchar con = .ok con' →
    text.foldl kernelPutchar (.ok (con, serial)) = .ok (con', serial ++ text) := by
  induction text with
  | nil =>
      intro con serial h
      cases h
      simp
  | cons c text ih =>
      intro con serial h
      rw [List.foldlM_cons] at h
      cases hstep : terminalPutchar con c with
      | error e => rw [hstep] at h; cases h
      | ok con₁ =>
          rw [hstep] at h
          have hone : kernelPutchar (.ok (con, serial)) c = .ok (con₁, serial ++ [c]) := by
            simp only [kernelPutchar, hstep, bind, Except.bind]
            rfl
          rw [List.foldl_cons, hone, ih _ h, List.append_assoc, List.singleton_append]

/-- Whatever the screen shows, after `terminal_clear` a `printf` of newlines and printable
characters returns their number, sends them on the serial line in order, and leaves on the screen
the last lines of the text, wrapped at the width of the terminal, with the cursor behind them. -/
theorem printf_shown (hp : Plain dev) (hf : Fits con dev font) (hin : con.term.Inside)
    (hnormal : con.term.ansiCtx.state = .normal) (hon : con.term.ansiCtx.cursorEnabled = true)
    (hvisible : con.cursorVisible = true) {m : Mem} {format text : List Byte} {va : Printf.VaList}
    (hformat : Printf.formatText m format va = some text) (htext : ∀ c ∈ text, Printed c)
    (hlen : text.length < 2 ^ 31) (serial : List Byte) :
    let page := text.foldl (Page.feed con.term.maxRows.toNat con.term.maxCols.toNat) Page.blank
    (page.lines ++ [page.current]).flatten = text.filter (· != ascii '\n') ∧
    ∃ con' outs, Printf.vprintf kernelPutchar m format va (.ok (terminalClear con, serial)) =
        some (.ok (con', serial ++ text), (text.length : Int)) ∧
      con'.output = con.output ++ outs ∧
      ∀ fb, Shows (dev.canvas (outs.foldl (display dev font) fb)) (cellTile dev font) font.width.toNat
        font.height.toNat con.term.maxRows.toNat con.term.maxCols.toNat
        (page.grid con.term.fgColor con.term.bgColor) := by
  refine ⟨feed_flatten con.term.maxRows.toNat con.term.maxCols.toNat text Page.blank, ?_⟩
  have hterm : (terminalClear con).term = { con.term with row := 0, col := 0 } := by
    simp only [terminalClear, Console.moveTo, Console.emit, terminalToggleCursor_term]
  obtain ⟨outs₀, hclear, hshows⟩ := terminalClear_shows hp hf hin hon
  have hpage : PageAt dev font (terminalClear con) Page.blank := by
    refine ⟨hclear.fits, ?_, ?_, ?_, ?_, ?_, ?_⟩ <;> rw [hterm]
    · rfl
    · exact Nat.zero_lt_of_lt hin.1
    · rfl
    · exact Nat.zero_lt_of_lt hin.2
    · exact hnormal
    · exact hon
  obtain ⟨con', hrun, hturned⟩ := print_page htext hpage ((terminalClear_visible hon).trans hvisible)
  obtain ⟨outs, hout, hdrawn⟩ := hturned.shows hp hpage.fits hpage.inside
  rw [hterm] at hdrawn
  refine ⟨con', outs₀ ++ outs, ?_, by rw [hout, hclear.output, List.append_assoc], fun fb => ?_⟩
  · have hnul : text.filter (· != 0#8) = text :=
      List.filter_eq_self.mpr fun c hc => bne_iff_ne.mpr fun h => absurd (h ▸ htext c hc) (by decide)
    have hcount : sint (wrap text.length) = text.length := by
      rw [wrap_of_lt (by omega)]
      unfold sint
      rw [Int.bmod_eq_of_le] <;> omega
    rw [Printf.vprintf_eq, hformat, Option.map_some, hnul, kernelPutchar_run text serial hrun, hcount]
  · have hblank : SameTiles con.term.maxRows.toNat con.term.maxCols.toNat
        (startGrid con.term.fgColor con.term.bgColor con.cursorVisible)
        (Page.blank.grid con.term.fgColor con.term.bgColor) := by
      intro r hr c hc
      rw [startGrid, setTiles_one, hvisible, Page.grid, Page.blank, Nat.zero_add]
      exact if_congr Iff.rfl rfl (by cases r <;> simp [textCell])
    rw [List.foldl_append]
    exact hdrawn _ _ hblank (hshows fb)

/-- `printf("n=%u\n", 7)`. -/
theorem printf_shown_seven :
    ([['n', '=', '7'].map ascii] ++ [[]]).flatten = (['n', '=', '7', '\n'].map ascii).filter (· != ascii '\n') ∧
    ∃ con' outs, Printf.vprintf kernelPutchar (fun _ => 0#8) (['n', '=', '%', 'u', '\n'].map ascii)
      (fun _ => 7#32)
        (.ok (terminalClear demoConsole, [])) = some (.ok (con', [] ++ ['n', '=', '7', '\n'].map ascii), 4) ∧
      con'.output = demoConsole.output ++ outs ∧
      ∀ fb, Shows ((screenOf 16 1280).canvas (outs.foldl (display (screenOf 16 1280) stripes) fb))
        (cellTile (screenOf 16 1280) stripes) 8 16 25 80
        (Page.grid vbeColorWhite vbeColorBlack ⟨[['n', '=', '7'].map ascii], [], 0⟩) :=
  @printf_shown (screenOf 16 1280) stripes demoConsole
    ⟨⟨⟨rfl, by decide⟩, by decide⟩, by decide, fun h => absurd h (by decide)⟩
      ⟨rfl, rfl, rfl, by decide, by decide⟩
    ⟨by decide, by decide⟩ rfl rfl rfl _ _ (['n', '=', '7', '\n'].map ascii) _ (by decide) (by decide)
      (by decide) []

end Frostix.Tty
