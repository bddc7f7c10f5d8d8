import Frostix.Libc

/-!
The terminal: the escape-sequence parser (`ansi.c`) and the character cells
(`terminal.c`). The context's two arrays have their declared sizes; an assignment
outside one of them ends the call with an `Overrun` that names the array and the
index. Pixels and serial output are recorded in the order in which they are requested. -/
namespace Frostix.Tty

open Machine32 Libc

/-- `vbe_color_t`. -/
structure VbeColor where
  red : BitVec 8
  green : BitVec 8
  blue : BitVec 8
  alpha : BitVec 8
  deriving DecidableEq

def VbeColor.rgb (r g b : BitVec 8) : VbeColor := ⟨r, g, b, 255#8⟩

def vbeColorBlack : VbeColor := .rgb 0#8 0#8 0#8

def vbeColorWhite : VbeColor := .rgb 255#8 255#8 255#8

/-- The table `ansi_colors`. -/
def ansiColors : Vector VbeColor 8 :=
  #v[vbeColorBlack, .rgb 255#8 0#8 0#8, .rgb 0#8 255#8 0#8, .rgb 255#8 255#8 0#8,
    .rgb 0#8 0#8 255#8, .rgb 255#8 0#8 255#8, .rgb 0#8 255#8 255#8, vbeColorWhite]

inductive Output where
  | fillRect (x y width height : UInt16) (color : VbeColor)
  | blit (dstX dstY srcX srcY width height : UInt16)
  | renderChar (c : Byte) (x y : UInt16) (fg bg : VbeColor)
  | serialFg (color : VbeColor)
  | serialBg (color : VbeColor)
  | cursorReport (row col : Int)
  deriving DecidableEq

inductive AnsiState where
  | normal
  | esc
  | csi
  deriving DecidableEq

/-- `ansi_context_t`. Both counters start at zero and are only incremented or reset. -/
structure AnsiContext where
  state : AnsiState
  ansiPrivate : Nat
  ansiBuf : Vector Byte 64
  ansiBufIdx : Nat
  ansiParams : Vector Int 16
  ansiParamCount : Nat
  savedRow : UInt16
  savedCol : UInt16
  cursorEnabled : Bool

/-- `terminal_t`; of the font only the cell size is read. -/
structure Terminal where
  col : UInt16
  row : UInt16
  maxCols : UInt16
  maxRows : UInt16
  fgColor : VbeColor
  bgColor : VbeColor
  fontWidth : UInt8
  fontHeight : UInt8
  ansiCtx : AnsiContext

/-- A terminal with the static `cursor_visible`, the width of the display and the
output so far. -/
structure Console where
  term : Terminal
  cursorVisible : Bool
  screenWidth : UInt16
  output : List Output

inductive Overrun where
  | ansiBuf (index : Nat)
  | ansiParams (index : Nat)
  deriving DecidableEq

/-- `ctx->ansi_params[i]` if that many parameters are there, else a default. -/
def AnsiContext.param (ctx : AnsiContext) (i : Fin 16) (default : Int) : Int :=
  if i.val < ctx.ansiParamCount then ctx.ansiParams[i] else default

def Console.emit (con : Console) (o : Output) : Console := { con with output := con.output ++ [o] }

def Console.moveTo (con : Console) (row col : UInt16) : Console :=
  { con with term := { con.term with row, col } }

def Console.setCtx (con : Console) (ctx : AnsiContext) : Console :=
  { con with term := { con.term with ansiCtx := ctx } }

/-- The movement commands. A parameter is an `int`, and so is the arithmetic on the
16-bit row and column; the result is truncated when it is stored. -/
def moveCursor (con : Console) (cmd : Byte) : Console :=
  let term := con.term
  let n := term.ansiCtx.param 0 1
  let row : Int := term.row.toNat
  let col : Int := term.col.toNat
  if cmd = ascii 'A' then con.moveTo (if row > n then u16 (sint (row - n)) else 0) term.col
  else if cmd = ascii 'B' then
    con.moveTo (u16 (min ((term.maxRows.toNat : Int) - 1) (sint (row + n)))) term.col
  else if cmd = ascii 'C' then
    con.moveTo term.row (u16 (min ((term.maxCols.toNat : Int) - 1) (sint (col + n))))
  else if cmd = ascii 'D' then con.moveTo term.row (if col > n then u16 (sint (col - n)) else 0)
  else if cmd = ascii 'H' then
    let r := term.ansiCtx.param 0 1
    let c := term.ansiCtx.param 1 1
    con.moveTo (u16 (min (max (sint (r - 1)) 0) ((term.maxRows.toNat : Int) - 1)))
      (u16 (min (max (sint (c - 1)) 0) ((term.maxCols.toNat : Int) - 1)))
  else con

def cells (a : Int) (b : UInt8) : UInt16 := u16 (sint (a * b.toNat))

/-- `J`: clear the screen, or conservatively the rest of the line. -/
def eraseDisplay (con : Console) : Console :=
  let term := con.term
  let row : Int := term.row.toNat
  let col : Int := term.col.toNat
  if term.ansiCtx.param 0 0 = 2 then
    let cleared := con.emit
      (.fillRect 0 0 con.screenWidth (cells term.maxRows.toNat term.fontHeight) term.bgColor)
    cleared.moveTo 0 0
  else
    con.emit (.fillRect (cells col term.fontWidth) (cells row term.fontHeight)
      (cells (term.maxCols.toNat - col) term.fontWidth) (u16 term.fontHeight.toNat) term.bgColor)

/-- `K`: the part of the line that is cleared depends on the mode. -/
def eraseLine (con : Console) : Console :=
  let term := con.term
  let mode := term.ansiCtx.param 0 0
  let (lx, lw) : UInt16 × UInt16 :=
    if mode = 0 then (term.col, term.maxCols - term.col)
    else if mode = 1 then (0, term.col + 1)
    else (0, term.maxCols)
  con.emit (.fillRect (cells lx.toNat term.fontWidth) (cells term.row.toNat term.fontHeight)
    (cells lw.toNat term.fontWidth) (u16 term.fontHeight.toNat) term.bgColor)

def setFg (con : Console) (color : VbeColor) : Console :=
  { con with term := { con.term with fgColor := color } }

def setBg (con : Console) (color : VbeColor) : Console :=
  { con with term := { con.term with bgColor := color } }

/-- An entry of `ansi_colors`; the callers keep the position below 8. -/
def ansiColor (i : Int) : VbeColor := ansiColors.toList.getD i.toNat vbeColorBlack

/-- `m`: the loop over the parameters. A 24-bit colour takes four more of them. -/
def selectGraphics (con : Console) : List Int → Console
  | [] => con
  | p :: rest =>
      if p = 0 then selectGraphics (setBg (setFg con vbeColorWhite) vbeColorBlack) rest
      else if 30 ≤ p ∧ p ≤ 37 then selectGraphics (setFg con (ansiColor (p - 30))) rest
      else if 40 ≤ p ∧ p ≤ 47 then selectGraphics (setBg con (ansiColor (p - 40))) rest
      else if p = 38 ∨ p = 48 then
        match rest with
        | mode :: r :: g :: b :: rest' =>
            if mode = 2 then
              let color := VbeColor.rgb (BitVec.ofInt 8 r) (BitVec.ofInt 8 g) (BitVec.ofInt 8 b)
              if p = 38 then selectGraphics ((setFg con color).emit (.serialFg color)) rest'
              else selectGraphics ((setBg con color).emit (.serialBg color)) rest'
            else selectGraphics con (mode :: r :: g :: b :: rest')
        | rest => selectGraphics con rest
      else selectGraphics con rest

/-- `s` and `u`: save and restore the cursor. -/
def saveRestore (con : Console) (cmd : Byte) : Console :=
  let ctx := con.term.ansiCtx
  if cmd = ascii 's' then con.setCtx { ctx with savedRow := con.term.row, savedCol := con.term.col }
  else if cmd = ascii 'u' then con.moveTo ctx.savedRow ctx.savedCol
  else con

/-- `n`: the cursor position is reported on the serial line. -/
def deviceStatus (con : Console) : Console :=
  let ctx := con.term.ansiCtx
  if 0 < ctx.ansiParamCount ∧ ctx.ansiParams[0] = 6 then
    con.emit (.cursorReport (con.term.row.toNat + 1) (con.term.col.toNat + 1))
  else con

/-- `handle_ansi_command`: at most one of the blocks applies to a command. -/
def handleAnsiCommand (con : Console) (cmd : Byte) : Console :=
  let con := moveCursor con cmd
  let con := if cmd = ascii 'J' then eraseDisplay con else con
  let con := if cmd = ascii 'K' then eraseLine con else con
  let con :=
    if cmd = ascii 'm' then
      let ctx := con.term.ansiCtx
      selectGraphics con (ctx.ansiParams.toList.take ctx.ansiParamCount)
    else con
  let con := saveRestore con cmd
  if cmd = ascii 'n' then deviceStatus con else con

/-- `ansi_init`; the arrays keep what they hold. -/
def ansiInit (ctx : AnsiContext) : AnsiContext :=
  { ctx with
    state := .normal
    ansiPrivate := 0
    ansiBufIdx := 0
    ansiParamCount := 0
    savedRow := 0
    savedCol := 0
    cursorEnabled := true }

/-- `ctx->ansi_buf[i] = c`. -/
def writeBuf (ctx : AnsiContext) (i : Nat) (c : Byte) : Except Overrun AnsiContext :=
  if h : i < 64 then .ok { ctx with ansiBuf := ctx.ansiBuf.set i c } else .error (.ansiBuf i)

/-- `ctx->ansi_params[ctx->ansi_param_count++] = p`. -/
def pushParam (ctx : AnsiContext) (p : Int) : Except Overrun AnsiContext :=
  if h : ctx.ansiParamCount < 16 then
    .ok { ctx with
      ansiParams := ctx.ansiParams.set ctx.ansiParamCount p
      ansiParamCount := ctx.ansiParamCount + 1 }
  else .error (.ansiParams ctx.ansiParamCount)

/-- `;`: the digits so far become a parameter, none become 0. -/
def endParam (ctx : AnsiContext) : Except Overrun AnsiContext := do
  let ctx ← writeBuf ctx ctx.ansiBufIdx 0#8
  let ctx ← pushParam ctx (if 0 < ctx.ansiBufIdx then atoi ctx.ansiBuf.toList else 0)
  return { ctx with ansiBufIdx := 0 }

/-- A letter: the digits so far become the last parameter, none add nothing. -/
def endLastParam (ctx : AnsiContext) : Except Overrun AnsiContext := do
  let ctx ← writeBuf ctx ctx.ansiBufIdx 0#8
  if 0 < ctx.ansiBufIdx then pushParam ctx (atoi ctx.ansiBuf.toList) else return ctx

/-- The first parameter that a command would get if its letter came now. -/
def AnsiContext.firstParam (ctx : AnsiContext) : Int :=
  match endLastParam ctx with
  | .ok ctx' => ctx'.param 0 1
  | .error _ => 1

/-- The state `ANSI_CSI` of `ansi_process_char`. -/
def processCsi (con : Console) (c : Byte) : Except Overrun Console :=
  let ctx := con.term.ansiCtx
  if isDigit c then
    if ctx.ansiBufIdx < 64 - 1 then do
      let ctx ← writeBuf ctx ctx.ansiBufIdx c
      return con.setCtx { ctx with ansiBufIdx := ctx.ansiBufIdx + 1 }
    else return con
  else if c = ascii ';' then do
    let ctx ← endParam ctx
    return con.setCtx ctx
  else if c = ascii '?' then return con.setCtx { ctx with ansiPrivate := 1 }
  else if isAlpha c then do
    let ctx ← endLastParam ctx
    let con := handleAnsiCommand (con.setCtx ctx) c
    return con.setCtx { con.term.ansiCtx with state := .normal }
  else return con.setCtx { ctx with state := .normal }

def ansiProcessChar (con : Console) (c : Byte) : Except Overrun Console :=
  let ctx := con.term.ansiCtx
  match ctx.state with
  | .normal =>
      if c = 27#8 then
        return con.setCtx
          { ctx with state := .esc, ansiBufIdx := 0, ansiParamCount := 0, ansiPrivate := 0 }
      else return con
  | .esc =>
      if c = ascii '[' then return con.setCtx { ctx with state := .csi, ansiBufIdx := 0 }
      else return con.setCtx { ctx with state := .normal }
  | .csi => processCsi con c

def terminalDrawCursor (con : Console) : Console :=
  let term := con.term
  if term.ansiCtx.cursorEnabled then
    con.emit (.fillRect (cells term.col.toNat term.fontWidth) (cells term.row.toNat term.fontHeight)
      (u16 term.fontWidth.toNat) (u16 term.fontHeight.toNat)
      (if con.cursorVisible then term.fgColor else term.bgColor))
  else con

def terminalToggleCursor (con : Console) : Console :=
  if con.term.ansiCtx.cursorEnabled then
    terminalDrawCursor { con with cursorVisible := !con.cursorVisible }
  else con

/-- `font_render_char` at the cursor. -/
def renderAtCursor (con : Console) (c : Byte) : Console :=
  let term := con.term
  con.emit (.renderChar c (cells term.col.toNat term.fontWidth) (cells term.row.toNat term.fontHeight)
    term.fgColor term.bgColor)

/-- Move to the start of the next line when the column has left the line. -/
def wrapLine (con : Console) : Console :=
  if con.term.maxCols ≤ con.term.col then con.moveTo (con.term.row + 1) 0 else con

/-- `\b`: one cell back, at the start of a line to the end of the line above. -/
def stepBack (con : Console) : Console :=
  let term := con.term
  if 0 < term.col then con.moveTo term.row (term.col - 1)
  else if 0 < term.row then con.moveTo (term.row - 1) (term.maxCols - 1)
  else con

/-- A character outside escape sequences. `char` is signed, so bytes from 128 on are
not printed. -/
def putText (con : Console) (c : Byte) : Console :=
  let term := con.term
  if c = ascii '\n' then con.moveTo (term.row + 1) 0
  else if c = ascii '\r' then con.moveTo term.row 0
  else if c = 8#8 then renderAtCursor (stepBack con) (ascii ' ')
  else if c = ascii '\t' then
    wrapLine (con.moveTo term.row (u16 ((term.col.toNat + 8) / 8 * 8 : Nat)))
  else if 32 ≤ c.toInt then
    let drawn := renderAtCursor con c
    wrapLine (drawn.moveTo term.row (term.col + 1))
  else con

def scroll (con : Console) : Console :=
  let term := con.term
  if term.maxRows ≤ term.row then
    let fontH : Int := term.fontHeight.toNat
    let termH : Int := (cells term.maxRows.toNat term.fontHeight).toNat
    let shifted := con.emit (.blit 0 0 0 (u16 fontH) con.screenWidth (u16 (termH - fontH)))
    let cleared := shifted.emit (.fillRect 0 (cells (term.maxRows.toNat - 1) term.fontHeight)
      con.screenWidth (u16 fontH) term.bgColor)
    cleared.moveTo (term.maxRows - 1) term.col
  else con

def terminalPutchar (con : Console) (c : Byte) : Except Overrun Console :=
  if con.term.ansiCtx.state = .normal then do
    let con := terminalToggleCursor con
    let con ← if c = 27#8 then ansiProcessChar con c else pure (putText con c)
    return terminalToggleCursor (scroll con)
  else ansiProcessChar con c

def terminalClear (con : Console) : Console :=
  let con := terminalToggleCursor con
  let term := con.term
  let cleared := con.emit
    (.fillRect 0 0 con.screenWidth (cells term.maxRows.toNat term.fontHeight) term.bgColor)
  terminalToggleCursor (cleared.moveTo 0 0)

def terminalSetCursor (con : Console) (row col : Int) : Console :=
  let con := terminalToggleCursor con
  let term := con.term
  terminalToggleCursor (con.moveTo
    (u16 (min (max row 0) ((term.maxRows.toNat : Int) - 1)))
    (u16 (min (max col 0) ((term.maxCols.toNat : Int) - 1))))

end Frostix.Tty
