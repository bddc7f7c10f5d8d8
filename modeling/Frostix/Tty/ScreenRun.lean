import Frostix.Drivers.StatusLine
import Frostix.Tty.Display

/-!
Every run of the terminal on the screen. The calls of the interface come in any order, and the
timer interrupt draws the status line between any two requests of the terminal. What the
terminal requests is made of cells above that line, so neither disturbs the other. -/
namespace Frostix.Tty

open Machine32 ByteMemory Libc Raster Drivers Transition

def terminalSetFgColor (con : Console) (color : VbeColor) : Console :=
  let con := terminalToggleCursor con
  terminalToggleCursor ((setFg con color).emit (.serialFg color))

def terminalSetBgColor (con : Console) (color : VbeColor) : Console :=
  let con := terminalToggleCursor con
  terminalToggleCursor ((setBg con color).emit (.serialBg color))

/-- A call of the terminal's interface; `terminal_set_bgfg` is two of them. -/
inductive Call where
  | cursor (op : TermOp)
  | setFgColor (color : VbeColor)
  | setBgColor (color : VbeColor)
  deriving DecidableEq

def perform (con : Console) : Call → Except Overrun Console
  | .cursor op => exec con op
  | .setFgColor color => .ok (terminalSetFgColor con color)
  | .setBgColor color => .ok (terminalSetBgColor con color)

def Call.next (s : Scan) : Call → Scan
  | .cursor op => op.next s
  | _ => s

/-- The call adds no seventeenth parameter, and a movement command that it completes does not
leave the screen. -/
def Call.InOrder (con : Console) (s : Scan) : Call → Prop
  | .cursor op => (∀ c, op = .putchar c → ¬s.Overfull c) ∧ op.MoveOk con
  | _ => True

def AllInOrder : Console → Scan → List Call → Prop
  | _, _, [] => True
  | con, s, call :: rest =>
      call.InOrder con s ∧ ∀ con', perform con call = .ok con' → AllInOrder con' (call.next s) rest

variable {dev : VbeDevice} {font : Font} {con : Console} {s : Scan}

theorem adds_ansiProcessChar (hf : Fits con dev font) (h : Safe con s) {c : Byte} (hroom : ¬s.Overfull c) :
    ∃ con' outs, ansiProcessChar con c = .ok con' ∧ Adds dev font con con' outs := by
  obtain ⟨con', hrun, -, -, hkeep⟩ := ansiProcessChar_tracks h.tracks h.bounded hroom
  refine ⟨con', ?_⟩
  by_cases hletter : con.term.ansiCtx.state = .csi ∧ isAlpha c = true
  · obtain ⟨hcsi, halpha⟩ := hletter
    obtain ⟨hdigit, hsemi, hquery⟩ := isAlpha_ne halpha
    have hprocess : ansiProcessChar con c = processCsi con c := by
      simp only [ansiProcessChar, hcsi]
    rw [hprocess] at hrun ⊢
    by_cases hlast : 0 < con.term.ansiCtx.ansiBufIdx ∧ con.term.ansiCtx.ansiParamCount = 16
    · simp only [processCsi, hdigit, hsemi, hquery, halpha, (endLastParam_spec h.bounded).2 hlast,
        Bool.false_eq_true, if_false, if_true] at hrun
      cases hrun
    · obtain ⟨ctx, hend, -, -⟩ := (endLastParam_spec h.bounded).1 hlast
      rw [processCsi_letter hdigit hsemi hquery halpha hend] at hrun
      cases hrun
      have hset : Adds dev font con (con.setCtx ctx) [] := Adds.quiet hf rfl rfl ⟨rfl, rfl, rfl, rfl⟩
      obtain ⟨outs, hcommand⟩ := adds_handleAnsiCommand hset.fits h.inside c
      have hdone := hset.trans hcommand
      exact ⟨_, processCsi_letter hdigit hsemi hquery halpha hend,
        hdone.trans (Adds.quiet hdone.fits rfl rfl ⟨rfl, rfl, rfl, rfl⟩)⟩
  · obtain ⟨ctx', rfl, -⟩ := hkeep hletter
    exact ⟨[], hrun, Adds.quiet hf rfl rfl ⟨rfl, rfl, rfl, rfl⟩⟩

theorem adds_between (hf : Fits con dev font) (hin : con.term.Inside) {con' : Console}
    (hdraw : Fits (terminalToggleCursor con) dev font →
      ∃ outs, Adds dev font (terminalToggleCursor con) con' outs) (hin' : con'.term.Inside) :
    ∃ outs, Adds dev font con (terminalToggleCursor con') outs := by
  obtain ⟨_, hoff⟩ := adds_toggleCursor hf hin
  obtain ⟨_, hdraw⟩ := hdraw hoff.fits
  obtain ⟨_, hon⟩ := adds_toggleCursor hdraw.fits hin'
  exact ⟨_, (hoff.trans hdraw).trans hon⟩

theorem adds_putchar (hf : Fits con dev font) (h : Safe con s) {c : Byte} (hroom : ¬s.Overfull c) :
    ∃ con' outs, terminalPutchar con c = .ok con' ∧ Adds dev font con con' outs := by
  by_cases hstate : con.term.ansiCtx.state = .normal
  · have hrows : 0 < con.term.maxRows.toNat := Nat.zero_lt_of_lt h.inside.1
    have hoff : (terminalToggleCursor con).term = con.term := terminalToggleCursor_term con
    have hin : (terminalToggleCursor con).term.Inside := hoff.symm ▸ h.inside
    by_cases hc : c = 27#8
    · subst hc
      have hrun : ansiProcessChar (terminalToggleCursor con) 27#8 = .ok ((terminalToggleCursor con).setCtx
          { con.term.ansiCtx with state := .esc, ansiBufIdx := 0, ansiParamCount := 0, ansiPrivate := 0 }) := by
        simp only [ansiProcessChar, hoff, hstate, if_true]
        rfl
      have hstay : scroll ((terminalToggleCursor con).setCtx
          { con.term.ansiCtx with state := .esc, ansiBufIdx := 0, ansiParamCount := 0, ansiPrivate := 0 }) =
          (terminalToggleCursor con).setCtx
          { con.term.ansiCtx with state := .esc, ansiBufIdx := 0, ansiParamCount := 0, ansiPrivate := 0 } :=
        if_neg (by simpa [UInt16.le_iff_toNat_le, Console.setCtx] using h.inside.1)
      obtain ⟨outs, hadds⟩ := @adds_between _ _ _ hf h.inside ((terminalToggleCursor con).setCtx
          { con.term.ansiCtx with state := .esc, ansiBufIdx := 0, ansiParamCount := 0, ansiPrivate := 0 })
        (fun hf => ⟨[], Adds.quiet hf rfl rfl ⟨rfl, rfl, rfl, rfl⟩⟩) hin
      refine ⟨_, outs, ?_, hadds⟩
      rw [terminalPutchar, if_pos hstate, if_pos rfl, hrun]
      exact congrArg (fun con => Except.ok (terminalToggleCursor con)) hstay
    · obtain ⟨row, col, htext, -, hcol⟩ := putText_spec hin c
      obtain ⟨row', hscroll, hrow'⟩ := @scroll_spec (putText (terminalToggleCursor con) c)
        (by rw [htext, hoff]; exact hrows)
      have hin' : (scroll (putText (terminalToggleCursor con) c)).term.Inside := by
        rw [hscroll]
        exact ⟨hrow', by rw [htext]; exact hcol⟩
      obtain ⟨outs, hadds⟩ := adds_between hf h.inside (fun hf => by
        obtain ⟨_, htext'⟩ := adds_putText hf hin c
        obtain ⟨_, hscroll'⟩ := adds_scroll htext'.fits (by rw [htext, hoff]; exact hrows)
        exact ⟨_, htext'.trans hscroll'⟩) hin'
      exact ⟨_, outs, by rw [terminalPutchar, if_pos hstate, if_neg hc]; rfl, hadds⟩
  · rw [terminalPutchar, if_neg hstate]
    exact adds_ansiProcessChar hf h hroom

theorem adds_clear (hf : Fits con dev font) (hin : con.term.Inside) :
    ∃ outs, Adds dev font con (terminalClear con) outs := by
  have hoff : (terminalToggleCursor con).term = con.term := terminalToggleCursor_term con
  have hrows : 0 < (terminalToggleCursor con).term.maxRows.toNat := by
    rw [hoff]
    exact Nat.zero_lt_of_lt hin.1
  refine adds_between hf hin (fun hf => ?_) ?_
  · have hclear := adds_clearRows hf hrows (terminalToggleCursor con).term.bgColor
    exact ⟨_, hclear.trans (Adds.quiet hclear.fits rfl rfl ⟨rfl, rfl, rfl, rfl⟩)⟩
  · simp only [Terminal.Inside, Console.moveTo, Console.emit, terminalToggleCursor_term]
    exact ⟨Nat.zero_lt_of_lt hin.1, Nat.zero_lt_of_lt hin.2⟩

theorem adds_setCursor (hf : Fits con dev font) (hin : con.term.Inside) (row col : Int) :
    ∃ outs, Adds dev font con (terminalSetCursor con row col) outs := by
  refine adds_between hf hin (fun hf => ⟨[], Adds.quiet hf rfl rfl ⟨rfl, rfl, rfl, rfl⟩⟩) ?_
  simp only [Terminal.Inside, Console.moveTo, terminalToggleCursor_term]
  exact ⟨clamped_inside (Nat.zero_lt_of_lt hin.1), clamped_inside (Nat.zero_lt_of_lt hin.2)⟩

theorem adds_setColor (hf : Fits con dev font) (hin : con.term.Inside) {fg bg : VbeColor} {o : Output}
    (ho : ∀ rows cols, Aligned dev font rows cols o) :
    ∃ outs, Adds dev font con (terminalToggleCursor (Console.emit { terminalToggleCursor con with
      term := { (terminalToggleCursor con).term with fgColor := fg, bgColor := bg } } o)) outs := by
  have hoff : (terminalToggleCursor con).term = con.term := terminalToggleCursor_term con
  refine adds_between hf hin (fun hf => ?_) (hoff.symm ▸ hin)
  have hset := adds_setColors hf fg bg
  exact ⟨_, hset.trans (Adds.emit hset.fits (ho _ _))⟩

/-- A call in order comes back safe, with requests made of cells only. -/
theorem perform_spec {call : Call} (hf : Fits con dev font) (h : Safe con s) (hcall : call.InOrder con s) :
    ∃ con' outs, perform con call = .ok con' ∧ Adds dev font con con' outs ∧ Safe con' (call.next s) := by
  have hcolors : ∀ {con' : Console} (fg bg : VbeColor), con'.term =
    { con.term with fgColor := fg, bgColor := bg } →
      Safe con' s := by
    intro con' fg bg hterm
    constructor <;> rw [hterm]
    · exact h.inside
    · exact h.saved
    · exact h.tracks
    · exact h.bounded
  cases call with
  | cursor op =>
      obtain ⟨hroom, hmove⟩ := hcall
      obtain ⟨con', hrun, hiff, hsafe⟩ := exec_spec h hroom
      have hadds : ∃ con' outs, exec con op = .ok con' ∧ Adds dev font con con' outs := by
        cases op with
        | putchar c => exact adds_putchar hf h (hroom c rfl)
        | clear =>
            obtain ⟨outs, hadds⟩ := adds_clear hf h.inside
            exact ⟨_, outs, rfl, hadds⟩
        | setCursor row col =>
            obtain ⟨outs, hadds⟩ := adds_setCursor hf h.inside row col
            exact ⟨_, outs, rfl, hadds⟩
      obtain ⟨con'', outs, hrun', hadds⟩ := hadds
      obtain rfl : con' = con'' := Except.ok.inj (hrun.symm.trans hrun')
      exact ⟨con', outs, hrun, hadds, hsafe (hiff.mpr hmove)⟩
  | setFgColor color =>
      obtain ⟨outs, hadds⟩ := @adds_setColor _ _ _ hf h.inside color (terminalToggleCursor con).term.bgColor
        (.serialFg color) fun _ _ => trivial
      refine ⟨_, outs, rfl, hadds, hcolors color con.term.bgColor ?_⟩
      simp only [terminalSetFgColor, setFg, Console.emit, terminalToggleCursor_term]
  | setBgColor color =>
      obtain ⟨outs, hadds⟩ := @adds_setColor _ _ _ hf h.inside (terminalToggleCursor con).term.fgColor color
        (.serialBg color) fun _ _ => trivial
      refine ⟨_, outs, rfl, hadds, hcolors con.term.fgColor color ?_⟩
      simp only [terminalSetBgColor, setBg, Console.emit, terminalToggleCursor_term]

theorem run_spec {calls : List Call} : ∀ {con : Console} {s : Scan}, Fits con dev font → Safe con s →
    AllInOrder con s calls → ∃ con' outs, calls.foldlM perform con = .ok con' ∧ Adds dev font con con' outs := by
  induction calls with
  | nil => exact fun hf _ _ => ⟨_, [], rfl, Adds.quiet hf rfl rfl ⟨rfl, rfl, rfl, rfl⟩⟩
  | cons call rest ih =>
      intro con s hf h horder
      obtain ⟨con₁, outs, hrun, hadds, hsafe⟩ := perform_spec hf h horder.1
      obtain ⟨con₂, outs', hrun', hadds'⟩ := ih hadds.fits hsafe (horder.2 con₁ hrun)
      exact ⟨con₂, _, by rw [List.foldlM_cons, hrun]; exact hrun', hadds.trans hadds'⟩

/-- What `terminal_init` assigns; `font_get_default` always has a font. -/
def Console.assign (con : Console) (dev : VbeDevice) (font : Font) : Console :=
  { con with
    term :=
      { con.term with
        fontWidth := font.width
        fontHeight := font.height
        maxCols := u16 (dev.width.toNat / font.width.toNat)
        maxRows := u16 (dev.height.toNat / font.height.toNat - 1)
        col := 0
        row := 0
        fgColor := vbeColorWhite
        bgColor := vbeColorBlack
        ansiCtx := ansiInit con.term.ansiCtx }
    screenWidth := dev.width }

def terminalInit (dev : VbeDevice) (font : Font) (con : Console) : Console :=
  terminalDrawCursor (terminalClear (con.assign dev font))

structure Roomy (dev : VbeDevice) (font : Font) : Prop where
  width : font.width.toNat ≤ dev.width.toNat
  height : 2 * font.height.toNat ≤ dev.height.toNat

theorem terminalDrawCursor_term (con : Console) : (terminalDrawCursor con).term = con.term := by
  unfold terminalDrawCursor
  dsimp only
  split_ifs <;> rfl

variable (dev font con) in
theorem terminalInit_term : (terminalInit dev font con).term = (con.assign dev font).term := by
  rw [terminalInit, terminalDrawCursor_term]
  simp only [terminalClear, Console.moveTo, Console.emit, terminalToggleCursor_term]
  rfl

structure Sized (dev : VbeDevice) (font : Font) (rows cols : Nat) : Prop where
  maxCols : (u16 (dev.width.toNat / font.width.toNat)).toNat = cols
  maxRows : (u16 (dev.height.toNat / font.height.toNat - 1)).toNat = rows
  columns_pos : 0 < cols
  rows_pos : 0 < rows
  width : cols * font.width.toNat ≤ dev.width.toNat
  height : (rows + 1) * font.height.toNat ≤ dev.height.toNat

theorem Roomy.sized (hroom : Roomy dev font) :
    Sized dev font (dev.height.toNat / font.height.toNat - 1) (dev.width.toNat / font.width.toNat) := by
  have hw := dev.width.toNat_lt
  have hh := dev.height.toNat_lt
  have hcols : 1 ≤ dev.width.toNat / font.width.toNat := (Nat.one_le_div_iff font.width_range.1).mpr hroom.width
  have hrows : 2 ≤ dev.height.toNat / font.height.toNat :=
    (Nat.le_div_iff_mul_le font.height_range.1).mpr hroom.height
  have hcols' := Nat.div_le_self dev.width.toNat font.width.toNat
  have hrows' := Nat.div_le_self dev.height.toNat font.height.toNat
  have hlast : ((dev.height.toNat : Int) / font.height.toNat - 1) =
      ((dev.height.toNat / font.height.toNat - 1 : Nat) : Int) := by
    rw [Nat.cast_sub (by omega)]
    rfl
  exact {
    maxCols := toNat_u16_nat (n := dev.width.toNat / font.width.toNat) (by omega)
    maxRows := by rw [hlast]; exact toNat_u16_nat (by omega)
    columns_pos := hcols
    rows_pos := by omega
    width := Nat.div_mul_le_self _ _
    height := by rw [Nat.sub_add_cancel (by omega)]; exact Nat.div_mul_le_self _ _ }

theorem assign_fits (hroom : Roomy dev font) : Fits (con.assign dev font) dev font := by
  have hsize := hroom.sized
  refine ⟨rfl, rfl, rfl, ?_, ?_⟩
  · rw [Console.assign, hsize.maxCols]
    exact hsize.width
  · rw [Console.assign, hsize.maxRows]
    exact hsize.height

theorem assign_inside (hroom : Roomy dev font) : (con.assign dev font).term.Inside := by
  have hsize := hroom.sized
  have hrows := hsize.rows_pos
  have hcols := hsize.columns_pos
  rw [← hsize.maxRows] at hrows
  rw [← hsize.maxCols] at hcols
  exact ⟨hrows, hcols⟩

theorem terminalInit_safe (hroom : Roomy dev font) : Safe (terminalInit dev font con) .text := by
  have hin := @assign_inside _ _ con hroom
  constructor <;> rw [terminalInit_term]
  · exact hin
  · exact hin
  · exact rfl
  · exact ⟨Nat.zero_le _, Nat.zero_le _⟩

def startGrid (fg bg : VbeColor) (cursorVisible : Bool) : Grid Cell :=
  setTiles (fun _ _ => .block bg) 0 0 1 1 (.block (if cursorVisible then fg else bg))

theorem display_clearRows (hp : Plain dev) (hf : Fits con dev font) (hin : con.term.Inside) (color : VbeColor)
    (fb : Mem) :
    Shows (dev.canvas (display dev font fb
        (.fillRect 0 0 con.screenWidth (cells con.term.maxRows.toNat con.term.fontHeight) color)))
      (cellTile dev font) font.width.toNat font.height.toNat con.term.maxRows.toNat con.term.maxCols.toNat
      fun _ _ => .block color := by
  have hcover := hf.columns
  have hbottom := hf.rows
  have hheight := hf.row le_rfl
  have hwide := Nat.mul_pos (Nat.zero_lt_of_lt hin.2) font.width_range.1
  have hhigh := Nat.mul_pos (Nat.zero_lt_of_lt hin.1) font.height_range.1
  rw [Nat.succ_mul] at hbottom
  have hscreen : InScreen dev 0 0 con.screenWidth (cells con.term.maxRows.toNat con.term.fontHeight) := by
    rw [hf.screenWidth]
    refine ⟨by rw [UInt16.toNat_zero]; omega, by rw [UInt16.toNat_zero]; omega, fun h => ?_, fun h => ?_⟩
    · rw [h, UInt16.toNat_zero] at hcover
      omega
    · rw [h, UInt16.toNat_zero] at hheight
      omega
  rw [display, canvas_fillRect hp hscreen, hheight]
  exact shows_filled (fun _ _ => rfl) (hf.screenWidth ▸ hcover) le_rfl

theorem toggleCursor_eq (hon : con.term.ansiCtx.cursorEnabled = true) :
    terminalToggleCursor con = Console.emit { con with cursorVisible := !con.cursorVisible }
      (cursorRect con.term con.term.row con.term.col
        (if con.cursorVisible then con.term.bgColor else con.term.fgColor)) := by
  unfold terminalToggleCursor terminalDrawCursor
  cases hv : con.cursorVisible <;> simp [hon, cursorRect]

theorem cellDisplay_cursorRect (hf : Fits con dev font) {row col : UInt16}
    (hrow : row.toNat < con.term.maxRows.toNat)
    (hcol : col.toNat < con.term.maxCols.toNat) (color : VbeColor) (g : Grid Cell) (rows : Nat) :
    cellDisplay font rows g (cursorRect con.term row col color) =
      setTiles g row.toNat col.toNat 1 1 (.block color) := by
  rw [cursorRect, cellDisplay, hf.column hcol.le, hf.row hrow.le, hf.cellWidth, hf.cellHeight,
    Nat.mul_div_cancel _ font.width_range.1, Nat.mul_div_cancel _ font.height_range.1,
    Nat.div_self font.width_range.1, Nat.div_self font.height_range.1]

theorem terminalClear_output (hon : con.term.ansiCtx.cursorEnabled = true) :
    (terminalClear con).output = con.output ++
      [cursorRect con.term con.term.row con.term.col
          (if con.cursorVisible then con.term.bgColor else con.term.fgColor),
        .fillRect 0 0 con.screenWidth (cells con.term.maxRows.toNat con.term.fontHeight) con.term.bgColor,
        cursorRect con.term 0 0 (if con.cursorVisible then con.term.fgColor else con.term.bgColor)] := by
  unfold terminalClear
  rw [toggleCursor_eq hon]
  dsimp only
  rw [toggleCursor_eq (by exact hon)]
  cases hv : con.cursorVisible <;> simp [Console.emit, Console.moveTo, cursorRect]

/-- After `terminal_clear` the screen is blank but for the cursor, whatever it showed before. -/
theorem terminalClear_shows (hp : Plain dev) (hf : Fits con dev font) (hin : con.term.Inside)
    (hon : con.term.ansiCtx.cursorEnabled = true) :
    ∃ outs, Adds dev font con (terminalClear con) outs ∧ ∀ fb,
      Shows (dev.canvas (outs.foldl (display dev font) fb)) (cellTile dev font) font.width.toNat font.height.toNat
        con.term.maxRows.toNat con.term.maxCols.toNat
        (startGrid con.term.fgColor con.term.bgColor con.cursorVisible) := by
  have hrows := Nat.zero_lt_of_lt hin.1
  have hcols := Nat.zero_lt_of_lt hin.2
  obtain ⟨outs, hadds⟩ := adds_clear hf hin
  obtain rfl := List.append_cancel_left (hadds.output.symm.trans (terminalClear_output hon))
  refine ⟨_, hadds, fun fb => ?_⟩
  have hcursor := (display_aligned hp hf.columns hf.rows hrows hcols _
    (hadds.aligned (cursorRect con.term 0 0 (if con.cursorVisible then con.term.fgColor else con.term.bgColor))
      (by simp))).shows _ (display_clearRows hp hf hin con.term.bgColor
      (display dev font fb (cursorRect con.term con.term.row con.term.col
        (if con.cursorVisible then con.term.bgColor else con.term.fgColor))))
  rwa [@cellDisplay_cursorRect _ _ _ hf 0 0 hrows hcols] at hcursor

theorem terminalClear_visible (hon : con.term.ansiCtx.cursorEnabled = true) :
    (terminalClear con).cursorVisible = con.cursorVisible := by
  unfold terminalClear
  rw [toggleCursor_eq hon]
  dsimp only
  rw [toggleCursor_eq (by exact hon)]
  exact Bool.not_not con.cursorVisible

theorem terminalInit_shows (hp : Plain dev) (hroom : Roomy dev font) :
    ∃ outs, Adds dev font (con.assign dev font) (terminalInit dev font con) outs ∧ ∀ fb,
      Shows (dev.canvas (outs.foldl (display dev font) fb)) (cellTile dev font) font.width.toNat font.height.toNat
        (dev.height.toNat / font.height.toNat - 1) (dev.width.toNat / font.width.toNat)
        (startGrid vbeColorWhite vbeColorBlack con.cursorVisible) := by
  have hin := @assign_inside _ _ con hroom
  have hsize := hroom.sized
  have hterm : (terminalClear (con.assign dev font)).term = (con.assign dev font).term := by
    simp only [terminalClear, Console.moveTo, Console.emit, terminalToggleCursor_term]
    rfl
  obtain ⟨outs, hclear, hshows⟩ := terminalClear_shows hp (assign_fits hroom) hin rfl
  have hdraw : terminalInit dev font con = (terminalClear (con.assign dev font)).emit
      (cursorRect (con.assign dev font).term 0 0 (if con.cursorVisible then vbeColorWhite else vbeColorBlack)) := by
    rw [terminalInit, terminalDrawCursor, hterm, terminalClear_visible rfl]
    rfl
  have htop : (0 : UInt16).toNat < (con.assign dev font).term.maxRows.toNat := Nat.zero_lt_of_lt hin.1
  have hleft : (0 : UInt16).toNat < (con.assign dev font).term.maxCols.toNat := Nat.zero_lt_of_lt hin.2
  have haligned := (assign_fits hroom).aligned_cursor htop hleft
    (if con.cursorVisible then vbeColorWhite else vbeColorBlack)
  have hstart : setTiles (startGrid vbeColorWhite vbeColorBlack con.cursorVisible) 0 0 1 1
      (.block (if con.cursorVisible then vbeColorWhite else vbeColorBlack)) =
      startGrid vbeColorWhite vbeColorBlack con.cursorVisible := by
    funext r c
    unfold startGrid setTiles
    split_ifs <;> rfl
  refine ⟨_, hclear.trans (hdraw ▸ Adds.emit hclear.fits (by rw [hterm]; exact haligned)), fun fb => ?_⟩
  have hshown := hshows fb
  have hrows : (con.assign dev font).term.maxRows.toNat = dev.height.toNat / font.height.toNat - 1 :=
    hsize.maxRows
  have hcols : (con.assign dev font).term.maxCols.toNat = dev.width.toNat / font.width.toNat := hsize.maxCols
  rw [hrows, hcols] at hshown haligned
  have hlast := (display_aligned hp hsize.width hsize.height hsize.rows_pos hsize.columns_pos _ haligned).shows _ hshown
  rw [@cellDisplay_cursorRect _ _ _ (assign_fits hroom) 0 0 (Nat.zero_lt_of_lt hin.1) (Nat.zero_lt_of_lt hin.2)] at hlast
  rw [List.foldl_append, ← hstart]
  exact hlast

/-- A request of the terminal, or an interrupt that draws the status line in some colours. -/
inductive ScreenEvent where
  | request (o : Output)
  | tick (t : Time) (fg bg : VbeColor)

def ScreenEvent.request? : ScreenEvent → Option Output
  | .request o => some o
  | .tick _ _ _ => none

/-- Memory and framebuffer after an event; `draw_status` has its buffer at `buf`. -/
def happen (dev : VbeDevice) (font : Font) (buf : Nat) (state : Mem × Mem) : ScreenEvent → Option (Mem × Mem)
  | .request o => some (state.1, display dev font state.2 o)
  | .tick t fg bg => drawStatus dev font fg bg buf t state.1 state.2

def stampTick (dev : VbeDevice) (font : Font) (c : Canvas (List (BitVec 8))) :
    ScreenEvent → Canvas (List (BitVec 8))
  | .request _ => c
  | .tick t fg bg => stampStatus dev font fg bg t c

def ScreenEvent.HasRoom (dev : VbeDevice) (font : Font) : ScreenEvent → Prop
  | .request _ => True
  | .tick t _ _ => (statusText t).length * font.width.toNat ≤ dev.width.toNat

/-- The terminal's rows show the grid, and below them stands what the raster holds. -/
structure OnScreen (dev : VbeDevice) (font : Font) (rows cols : Nat) (fb : Mem) (g : Grid Cell)
    (line : Canvas (List (BitVec 8))) : Prop where
  shows : Shows (dev.canvas fb) (cellTile dev font) font.width.toNat font.height.toNat rows cols g
  below : ∀ i j, rows * font.height.toNat ≤ j → dev.canvas fb i j = line i j

theorem OnScreen.tick {rows cols : Nat} {fb fb' : Mem} {g : Grid Cell} {line : Canvas (List (BitVec 8))}
    {t : Time} {fg bg : VbeColor} (h : OnScreen dev font rows cols fb g line)
    (htop : rows * font.height.toNat ≤ statusTop dev font)
    (hdraw : dev.canvas fb' = stampStatus dev font fg bg t (dev.canvas fb)) :
    OnScreen dev font rows cols fb' g (stampStatus dev font fg bg t line) := by
  constructor
  · intro i j hi hj
    rw [hdraw, stampStatus, stamp_outside (by unfold InRect; omega)]
    exact h.shows i j hi hj
  · intro i j hj
    rw [hdraw, stampStatus, stampStatus, stamp, stamp, h.below i j hj]

theorem happen_spec (hp : Plain dev) (hroom : Roomy dev font) {rows cols : Nat} (hsize : Sized dev font rows cols)
    (htop : rows * font.height.toNat ≤ statusTop dev font) {buf : Nat} (hbuf : buf ≠ 0) (hend : buf + 32 ≤ 2 ^ 32)
    {events : List ScreenEvent} : ∀ {m fb : Mem} {g : Grid Cell} {line : Canvas (List (BitVec 8))},
      OnScreen dev font rows cols fb g line → (∀ e ∈ events, e.HasRoom dev font) →
      (∀ o ∈ events.filterMap ScreenEvent.request?, Aligned dev font rows cols o) →
      ∃ m' fb', events.foldlM (happen dev font buf) (m, fb) = some (m', fb') ∧
        OnScreen dev font rows cols fb' ((events.filterMap ScreenEvent.request?).foldl (cellDisplay font rows) g)
          (events.foldl (stampTick dev font) line) ∧ ∀ x, x < buf ∨ buf + 32 ≤ x → m' x = m x := by
  induction events with
  | nil => exact fun h _ _ => ⟨_, _, rfl, h, fun _ _ => rfl⟩
  | cons e events ih =>
      intro m fb g line h hfit haligned
      have hrest : ∀ e' ∈ events, e'.HasRoom dev font := fun e' he => hfit e' (List.mem_cons_of_mem e he)
      cases e with
      | request o =>
          have hlist : (ScreenEvent.request o :: events).filterMap ScreenEvent.request? =
              o :: events.filterMap ScreenEvent.request? := rfl
          rw [hlist] at haligned ⊢
          have hdrawn := display_aligned hp hsize.width hsize.height hsize.rows_pos hsize.columns_pos fb
            (haligned o List.mem_cons_self)
          exact ih ⟨hdrawn.shows g h.shows, fun i j hj => (hdrawn.below i j hj).trans (h.below i j hj)⟩ hrest
            fun o' ho' => haligned o' (List.mem_cons_of_mem o ho')
      | tick t fg bg =>
          have hlist : (ScreenEvent.tick t fg bg :: events).filterMap ScreenEvent.request? =
              events.filterMap ScreenEvent.request? := rfl
          rw [hlist] at haligned ⊢
          have hlong := (statusText_length t).2
          obtain ⟨fb₁, hrun, hcanvas⟩ := drawStatus_eq hp hbuf hend fg bg (hfit _ List.mem_cons_self)
            (by have := hroom.height; omega) m fb
          obtain ⟨m', fb', hruns, hscreen, hmem⟩ := ih (m := Emit.place m buf (statusText t ++ [0#8]))
            (h.tick htop hcanvas) hrest haligned
          refine ⟨m', fb', by rw [List.foldlM_cons, happen, hrun]; exact hruns, hscreen, fun x hx => ?_⟩
          rw [hmem x hx, Emit.place_apply, dif_neg]
          rw [List.length_append, List.length_singleton]
          omega

/-- From `terminal_init` on, whatever calls are made as long as each is in order, and wherever
interrupts draw the status line between the terminal's requests: the terminal's rows show the
cells that the requests alone describe, below them stands what the interrupts alone draw, and
no memory outside the buffer of `draw_status` is written. -/
theorem terminal_shows (hp : Plain dev) (hroom : Roomy dev font) (hquiet : con.output = []) {buf : Nat}
    (hbuf : buf ≠ 0) (hend : buf + 32 ≤ 2 ^ 32) {calls : List Call}
    (horder : AllInOrder (terminalInit dev font con) .text calls) :
    ∃ con' outs, calls.foldlM perform (terminalInit dev font con) = .ok con' ∧
      con'.output = (terminalInit dev font con).output ++ outs ∧
      ∀ (events : List ScreenEvent) (m fb : Mem), events.filterMap ScreenEvent.request? = outs →
        (∀ e ∈ events, e.HasRoom dev font) →
        let rows := dev.height.toNat / font.height.toNat - 1
        let start := (terminalInit dev font con).output.foldl (display dev font) fb
        ∃ m' fb', events.foldlM (happen dev font buf) (m, start) = some (m', fb') ∧
          OnScreen dev font rows (dev.width.toNat / font.width.toNat) fb'
            (outs.foldl (cellDisplay font rows) (startGrid vbeColorWhite vbeColorBlack con.cursorVisible))
            (events.foldl (stampTick dev font) (dev.canvas start)) ∧
          ∀ x, x < buf ∨ buf + 32 ≤ x → m' x = m x := by
  obtain ⟨outs₀, hinit, hshows⟩ := @terminalInit_shows _ _ con hp hroom
  obtain ⟨con', outs, hrun, hadds⟩ := run_spec hinit.fits (terminalInit_safe hroom) horder
  have haligned := hadds.aligned
  have houtput : (terminalInit dev font con).output = outs₀ := by
    rw [hinit.output, Console.assign, hquiet, List.nil_append]
  rw [terminalInit_term, Console.assign, hroom.sized.maxRows, hroom.sized.maxCols] at haligned
  refine ⟨con', outs, hrun, hadds.output, ?_⟩
  rintro events m fb rfl hfit
  exact happen_spec hp hroom hroom.sized le_rfl hbuf hend ⟨houtput ▸ hshows fb, fun _ _ _ => rfl⟩ hfit haligned

def stripes : Font where
  width := 8
  height := 16
  data := fun _ row => if row % 2 = 0 then 255#8 else 0#8
  width_range := by decide
  height_range := by decide

theorem terminal_shows_letter :
    ∃ con' outs, [Call.setFgColor vbeColorBlack, .cursor (.putchar (ascii 'a'))].foldlM perform
        (terminalInit (screenOf 16 1280) stripes demoConsole) = .ok con' ∧
      con'.output = (terminalInit (screenOf 16 1280) stripes demoConsole).output ++ outs ∧
      ∀ (events : List ScreenEvent) (m fb : Mem), events.filterMap ScreenEvent.request? = outs →
        (∀ e ∈ events, e.HasRoom (screenOf 16 1280) stripes) →
        ∃ m' fb', events.foldlM (happen (screenOf 16 1280) stripes 4096)
            (m, (terminalInit (screenOf 16 1280) stripes demoConsole).output.foldl
              (display (screenOf 16 1280) stripes) fb) = some (m', fb') ∧
          OnScreen (screenOf 16 1280) stripes 29 80 fb'
            (outs.foldl (cellDisplay stripes 29) (startGrid vbeColorWhite vbeColorBlack true))
            (events.foldl (stampTick (screenOf 16 1280) stripes) ((screenOf 16 1280).canvas
              ((terminalInit (screenOf 16 1280) stripes demoConsole).output.foldl
                (display (screenOf 16 1280) stripes) fb))) ∧
          ∀ x, x < 4096 ∨ 4096 + 32 ≤ x → m' x = m x := by
  have hp : Plain (screenOf 16 1280) := ⟨⟨⟨rfl, by decide⟩, by decide⟩, by decide, fun h => absurd h (by decide)⟩
  refine terminal_shows hp ⟨by decide, by decide⟩ rfl (by decide) (by decide) ⟨trivial, ?_⟩
  intro con' hrun
  obtain rfl := Except.ok.inj hrun
  exact ⟨⟨fun _ _ h => h, fun h => nomatch h⟩, fun _ _ => trivial⟩

end Frostix.Tty
