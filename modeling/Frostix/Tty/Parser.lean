import Frostix.Lib.Transition
import Frostix.Tty.Model

/-!
The bounds of the parser's two buffers. What a byte sequence does to the buffers
depends only on how many parameters each control sequence carries, which `Scan`
reads off the bytes alone. `ansiProcessChar` follows the scan, and its only write
outside an array is that of a seventeenth parameter. -/
namespace Frostix.Tty

open Machine32 Libc Transition

/-- Where a byte sequence stands: in text, after an escape, or in a control sequence
with some parameters closed and perhaps a digit of the next one seen. -/
inductive Scan where
  | text
  | escape
  | csi (closed : Nat) (digits : Bool)
  deriving DecidableEq

def Scan.next : Scan → Byte → Scan
  | .text, c => if c = 27#8 then .escape else .text
  | .escape, c => if c = ascii '[' then .csi 0 false else .text
  | .csi closed digits, c =>
      if isDigit c then .csi closed true
      else if c = ascii ';' then .csi (closed + 1) false
      else if c = ascii '?' then .csi closed digits
      else .text

/-- The byte closes a parameter of a control sequence that already has sixteen. -/
def Scan.Overfull : Scan → Byte → Prop
  | .csi closed digits, c => 16 ≤ closed ∧ (c = ascii ';' ∨ (isAlpha c = true ∧ digits = true))
  | _, _ => False

instance (s : Scan) (c : Byte) : Decidable (s.Overfull c) := by
  unfold Scan.Overfull
  split <;> infer_instance

def AtMostSixteen : Scan → List Byte → Prop
  | _, [] => True
  | s, c :: cs => ¬ s.Overfull c ∧ AtMostSixteen (s.next c) cs

instance decidableAtMostSixteen : (s : Scan) → (cs : List Byte) → Decidable (AtMostSixteen s cs)
  | _, [] => instDecidableTrue
  | s, c :: cs => @instDecidableAnd _ _ _ (decidableAtMostSixteen (s.next c) cs)

def AnsiContext.Bounded (ctx : AnsiContext) : Prop := ctx.ansiBufIdx ≤ 63 ∧ ctx.ansiParamCount ≤ 16

def Tracks (ctx : AnsiContext) : Scan → Prop
  | .text => ctx.state = .normal
  | .escape => ctx.state = .esc ∧ ctx.ansiParamCount = 0
  | .csi closed digits =>
      ctx.state = .csi ∧ ctx.ansiParamCount = closed ∧ (digits = true ↔ 0 < ctx.ansiBufIdx)

theorem moveCursor_keeps (con : Console) (cmd : Byte) :
    ∃ row col, (moveCursor con cmd).term = { con.term with row, col } := by
  unfold moveCursor
  dsimp only
  split_ifs <;> exact ⟨_, _, rfl⟩

theorem eraseDisplay_keeps (con : Console) :
    ∃ row col, (eraseDisplay con).term = { con.term with row, col } := by
  unfold eraseDisplay
  dsimp only
  split_ifs <;> exact ⟨_, _, rfl⟩

theorem selectGraphics_keeps (con : Console) (ps : List Int) :
    ∃ fg bg, (selectGraphics con ps).term = { con.term with fgColor := fg, bgColor := bg } := by
  -- every branch recurses on a console that differs in its colours and its output only
  fun_induction selectGraphics con ps
  case case1 => exact ⟨_, _, rfl⟩
  all_goals assumption

/-- A command moves the cursor, changes the colours or, for `s`, the saved cursor, and
leaves the rest of the terminal alone. -/
theorem handleAnsiCommand_keeps (con : Console) (cmd : Byte) :
    ∃ row col fg bg savedRow savedCol, (handleAnsiCommand con cmd).term =
      { con.term with
        row, col, fgColor := fg, bgColor := bg
        ansiCtx := { con.term.ansiCtx with savedRow, savedCol } } ∧
      (cmd ≠ ascii 's' →
        savedRow = con.term.ansiCtx.savedRow ∧ savedCol = con.term.ansiCtx.savedCol) := by
  obtain ⟨row, col, hmove⟩ := moveCursor_keeps con cmd
  unfold handleAnsiCommand
  generalize moveCursor con cmd = con₁ at hmove ⊢
  have herase : ∃ row col, (if cmd = ascii 'J' then eraseDisplay con₁ else con₁).term =
      { con₁.term with row, col } := by
    split_ifs
    · exact eraseDisplay_keeps con₁
    · exact ⟨_, _, rfl⟩
  dsimp only
  generalize (if cmd = ascii 'J' then eraseDisplay con₁ else con₁) = con₂ at herase ⊢
  have hline : (if cmd = ascii 'K' then eraseLine con₂ else con₂).term = con₂.term := by
    split_ifs <;> rfl
  generalize (if cmd = ascii 'K' then eraseLine con₂ else con₂) = con₃ at hline ⊢
  have hsgr : ∃ fg bg, (if cmd = ascii 'm' then
      selectGraphics con₃ (con₃.term.ansiCtx.ansiParams.toList.take con₃.term.ansiCtx.ansiParamCount)
      else con₃).term = { con₃.term with fgColor := fg, bgColor := bg } := by
    split_ifs
    · exact selectGraphics_keeps _ _
    · exact ⟨_, _, rfl⟩
  generalize (if cmd = ascii 'm' then
      selectGraphics con₃ (con₃.term.ansiCtx.ansiParams.toList.take con₃.term.ansiCtx.ansiParamCount)
      else con₃) = con₄ at hsgr ⊢
  have hsave : ∃ row col savedRow savedCol, (saveRestore con₄ cmd).term =
      { con₄.term with row, col, ansiCtx := { con₄.term.ansiCtx with savedRow, savedCol } } ∧
      (cmd ≠ ascii 's' →
        savedRow = con₄.term.ansiCtx.savedRow ∧ savedCol = con₄.term.ansiCtx.savedCol) := by
    unfold saveRestore
    dsimp only
    split_ifs with hs
    · exact ⟨_, _, _, _, rfl, fun hne => absurd hs hne⟩
    · exact ⟨_, _, _, _, rfl, fun _ => ⟨rfl, rfl⟩⟩
    · exact ⟨_, _, _, _, rfl, fun _ => ⟨rfl, rfl⟩⟩
  generalize saveRestore con₄ cmd = con₅ at hsave ⊢
  have hreport : (if cmd = ascii 'n' then deviceStatus con₅ else con₅).term = con₅.term := by
    unfold deviceStatus
    dsimp only
    split_ifs <;> rfl
  obtain ⟨row₂, col₂, h₂⟩ := herase
  obtain ⟨fg, bg, h₄⟩ := hsgr
  obtain ⟨row₅, col₅, savedRow, savedCol, h₅, hsaved⟩ := hsave
  rw [h₄, hline, h₂, hmove] at hsaved
  exact ⟨row₅, col₅, fg, bg, savedRow, savedCol, by rw [hreport, h₅, h₄, hline, h₂, hmove], hsaved⟩

def SameSaved (ctx ctx' : AnsiContext) : Prop :=
  ctx'.savedRow = ctx.savedRow ∧ ctx'.savedCol = ctx.savedCol

theorem SameSaved.trans {ctx₁ ctx₂ ctx₃ : AnsiContext} (h : SameSaved ctx₁ ctx₂)
    (h' : SameSaved ctx₂ ctx₃) : SameSaved ctx₁ ctx₃ := ⟨h'.1.trans h.1, h'.2.trans h.2⟩

/-- A write inside `ansi_buf` changes none of the counters. -/
theorem writeBuf_spec {ctx : AnsiContext} {i : Nat} (h : i < 64) (c : Byte) :
    ∃ ctx', writeBuf ctx i c = .ok ctx' ∧ SameSaved ctx ctx' ∧ ctx'.state = ctx.state ∧
      ctx'.ansiBufIdx = ctx.ansiBufIdx ∧ ctx'.ansiParamCount = ctx.ansiParamCount :=
  ⟨_, dif_pos h, ⟨rfl, rfl⟩, rfl, rfl, rfl⟩

theorem pushParam_spec (ctx : AnsiContext) (p : Int) :
    (ctx.ansiParamCount < 16 → ∃ ctx', pushParam ctx p = .ok ctx' ∧ SameSaved ctx ctx' ∧
      ctx'.state = ctx.state ∧ ctx'.ansiBufIdx = ctx.ansiBufIdx ∧
      ctx'.ansiParamCount = ctx.ansiParamCount + 1) ∧
    (ctx.ansiParamCount = 16 → pushParam ctx p = .error (.ansiParams 16)) := by
  refine ⟨fun hroom => ⟨_, dif_pos hroom, ⟨rfl, rfl⟩, rfl, rfl, rfl⟩, fun hfull => ?_⟩
  rw [pushParam, dif_neg (by omega), hfull]

/-- `;` closes a parameter if there is room for it. -/
theorem endParam_spec {ctx : AnsiContext} (hb : ctx.Bounded) :
    (ctx.ansiParamCount < 16 → ∃ ctx', endParam ctx = .ok ctx' ∧ SameSaved ctx ctx' ∧
      ctx'.state = ctx.state ∧ ctx'.ansiBufIdx = 0 ∧ ctx'.ansiParamCount = ctx.ansiParamCount + 1) ∧
    (ctx.ansiParamCount = 16 → endParam ctx = .error (.ansiParams 16)) := by
  obtain ⟨ctx₁, hwrite, hsaved, hstate, -, hcount⟩ := writeBuf_spec (Nat.lt_succ_of_le hb.1) 0#8
  unfold endParam
  rw [hwrite]
  simp only [bind, Except.bind]
  have hpush := pushParam_spec ctx₁ (if 0 < ctx₁.ansiBufIdx then atoi ctx₁.ansiBuf.toList else 0)
  rw [hcount] at hpush
  refine ⟨fun hroom => ?_, fun hfull => by rw [hpush.2 hfull]⟩
  obtain ⟨ctx₂, hpushed, hsaved₂, hstate₂, -, hcount₂⟩ := hpush.1 hroom
  rw [hpushed]
  exact ⟨_, rfl, hsaved.trans hsaved₂, hstate₂.trans hstate, rfl, hcount₂⟩

theorem endLastParam_spec {ctx : AnsiContext} (hb : ctx.Bounded) :
    (¬ (0 < ctx.ansiBufIdx ∧ ctx.ansiParamCount = 16) →
      ∃ ctx', endLastParam ctx = .ok ctx' ∧ SameSaved ctx ctx' ∧ ctx'.Bounded) ∧
    (0 < ctx.ansiBufIdx ∧ ctx.ansiParamCount = 16 → endLastParam ctx = .error (.ansiParams 16)) := by
  obtain ⟨ctx₁, hwrite, hsaved, -, hidx, hcount⟩ := writeBuf_spec (Nat.lt_succ_of_le hb.1) 0#8
  unfold endLastParam
  rw [hwrite]
  simp only [bind, Except.bind, hidx]
  have hpush := pushParam_spec ctx₁ (atoi ctx₁.ansiBuf.toList)
  rw [hcount] at hpush
  refine ⟨fun hroom => ?_, fun ⟨hdigits, hfull⟩ => by rw [if_pos hdigits, hpush.2 hfull]⟩
  by_cases hdigits : 0 < ctx.ansiBufIdx
  · have hlt : ctx.ansiParamCount < 16 := by
      have := hb.2
      omega
    obtain ⟨ctx₂, hpushed, hsaved₂, -, hidx₂, hcount₂⟩ := hpush.1 hlt
    rw [if_pos hdigits]
    refine ⟨ctx₂, hpushed, hsaved.trans hsaved₂, ?_, by omega⟩
    rw [hidx₂, hidx]
    exact hb.1
  · rw [if_neg hdigits]
    exact ⟨ctx₁, rfl, hsaved, hidx ▸ hb.1, hcount ▸ hb.2⟩

theorem processCsi_letter {con : Console} {c : Byte} {ctx : AnsiContext} (hdigit : isDigit c = false)
    (hsemi : c ≠ ascii ';') (hquery : c ≠ ascii '?') (halpha : isAlpha c = true)
    (hend : endLastParam con.term.ansiCtx = .ok ctx) :
    processCsi con c = .ok
      ((handleAnsiCommand (con.setCtx ctx) c).setCtx
        { (handleAnsiCommand (con.setCtx ctx) c).term.ansiCtx with state := .normal }) := by
  simp only [processCsi, hdigit, hsemi, hquery, halpha, hend, Bool.false_eq_true, if_false, if_true]
  rfl

theorem isAlpha_ne {c : Byte} (h : isAlpha c = true) :
    isDigit c = false ∧ c ≠ ascii ';' ∧ c ≠ ascii '?' := by
  revert h
  revert c
  decide

/-- Below the seventeenth parameter the parser follows the scan inside its buffers, and
unless a command is dispatched it changes nothing outside its context. -/
theorem ansiProcessChar_tracks {con : Console} {s : Scan} {c : Byte} (hs : Tracks con.term.ansiCtx s)
    (hb : con.term.ansiCtx.Bounded) (hroom : ¬ s.Overfull c) :
    ∃ con', ansiProcessChar con c = .ok con' ∧ Tracks con'.term.ansiCtx (s.next c) ∧
      con'.term.ansiCtx.Bounded ∧
      (¬ (con.term.ansiCtx.state = .csi ∧ isAlpha c = true) →
        ∃ ctx', con' = con.setCtx ctx' ∧ SameSaved con.term.ansiCtx ctx') := by
  cases s with
  | text =>
      have hstate : con.term.ansiCtx.state = .normal := hs
      simp only [ansiProcessChar, hstate, Scan.next]
      split_ifs
      · exact ⟨_, rfl, ⟨rfl, rfl⟩, ⟨Nat.zero_le _, Nat.zero_le _⟩, fun _ => ⟨_, rfl, rfl, rfl⟩⟩
      · exact ⟨_, rfl, hstate, hb, fun _ => ⟨con.term.ansiCtx, rfl, rfl, rfl⟩⟩
  | escape =>
      obtain ⟨hstate, hcount⟩ := hs
      simp only [ansiProcessChar, hstate, Scan.next]
      split_ifs
      · exact ⟨_, rfl, ⟨rfl, hcount, by simp [Console.setCtx]⟩, ⟨Nat.zero_le _, hb.2⟩,
          fun _ => ⟨_, rfl, rfl, rfl⟩⟩
      · exact ⟨_, rfl, rfl, hb, fun _ => ⟨_, rfl, rfl, rfl⟩⟩
  | csi closed digits =>
      obtain ⟨hstate, hcount, hdigits⟩ := hs
      simp only [ansiProcessChar, hstate, Scan.next]
      by_cases hdigit : isDigit c = true
      · simp only [processCsi, hdigit, if_true]
        split_ifs with hidx
        · have hlt : con.term.ansiCtx.ansiBufIdx < 64 := by omega
          obtain ⟨ctx₁, hwrite, hsaved, hstate₁, hidx₁, hcount₁⟩ := writeBuf_spec hlt c
          rw [hwrite]
          refine ⟨_, rfl, ⟨hstate₁.trans hstate, hcount₁.trans hcount, by simp [Console.setCtx]⟩, ⟨?_, ?_⟩,
            fun _ => ⟨_, rfl, hsaved⟩⟩
          · simp only [Console.setCtx, hidx₁]
            omega
          · exact hcount₁ ▸ hb.2
        · refine ⟨_, rfl, ⟨hstate, hcount, ?_⟩, hb, fun _ => ⟨con.term.ansiCtx, rfl, rfl, rfl⟩⟩
          simp only [true_iff]
          omega
      · by_cases hsemi : c = ascii ';'
        · have hlt : con.term.ansiCtx.ansiParamCount < 16 := by
            rw [hcount]
            exact not_le.mp fun hle => hroom ⟨hle, Or.inl hsemi⟩
          obtain ⟨ctx', hrun, hsaved, hstate', hidx', hcount'⟩ := (endParam_spec hb).1 hlt
          refine ⟨con.setCtx ctx', ?_, ?_, ?_, fun _ => ⟨ctx', rfl, hsaved⟩⟩
          · simp only [processCsi, hsemi, hrun, if_true, Bool.false_eq_true, if_false,
              show isDigit (ascii ';') = false by decide]
            rfl
          · simp only [hsemi, if_true, Bool.false_eq_true, if_false,
              show isDigit (ascii ';') = false by decide]
            exact ⟨hstate'.trans hstate, by rw [← hcount]; exact hcount', by simp [Console.setCtx, hidx']⟩
          · exact ⟨by simp [Console.setCtx, hidx'], by simp only [Console.setCtx]; omega⟩
        · by_cases hquery : c = ascii '?'
          · refine ⟨con.setCtx { con.term.ansiCtx with ansiPrivate := 1 }, ?_, ?_, hb,
              fun _ => ⟨_, rfl, rfl, rfl⟩⟩
            · simp only [processCsi, hquery, show isDigit (ascii '?') = false by decide,
                show ¬ ascii '?' = ascii ';' by decide, if_true, Bool.false_eq_true, if_false]
              rfl
            · simp only [hquery, show isDigit (ascii '?') = false by decide,
                show ¬ ascii '?' = ascii ';' by decide, if_true, Bool.false_eq_true, if_false]
              exact ⟨hstate, hcount, hdigits⟩
          · rw [if_neg hdigit, if_neg hsemi, if_neg hquery]
            by_cases halpha : isAlpha c = true
            · have hlast : ¬ (0 < con.term.ansiCtx.ansiBufIdx ∧ con.term.ansiCtx.ansiParamCount = 16) :=
                fun ⟨hidx, hfull⟩ => hroom ⟨by omega, Or.inr ⟨halpha, hdigits.mpr hidx⟩⟩
              obtain ⟨ctx', hrun, -, hb'⟩ := (endLastParam_spec hb).1 hlast
              refine ⟨_, processCsi_letter (Bool.eq_false_iff.mpr hdigit) hsemi hquery halpha hrun, rfl, ?_,
                fun hno => absurd ⟨trivial, halpha⟩ hno⟩
              obtain ⟨row, col, fg, bg, sr, sc, hkeep, -⟩ := handleAnsiCommand_keeps (con.setCtx ctx') c
              simp only [Console.setCtx] at hkeep ⊢
              rw [hkeep]
              exact hb'
            · refine ⟨con.setCtx { con.term.ansiCtx with state := .normal }, ?_, rfl, hb,
                fun _ => ⟨_, rfl, rfl, rfl⟩⟩
              simp only [processCsi, hdigit, hsemi, hquery, halpha, if_false, Bool.false_eq_true]
              rfl

theorem ansiProcessChar_overrun {con : Console} {s : Scan} {c : Byte} (hs : Tracks con.term.ansiCtx s)
    (hb : con.term.ansiCtx.Bounded) (hfull : s.Overfull c) :
    ansiProcessChar con c = .error (.ansiParams 16) := by
  cases s with
  | text | escape => exact hfull.elim
  | csi closed digits =>
      obtain ⟨hstate, hcount, hdigits⟩ := hs
      obtain ⟨hclosed, hends⟩ := hfull
      have hsixteen : con.term.ansiCtx.ansiParamCount = 16 := by
        have := hb.2
        omega
      simp only [ansiProcessChar, hstate]
      rcases hends with hsemi | ⟨halpha, hdig⟩
      · simp only [processCsi, hsemi, show isDigit (ascii ';') = false by decide,
          (endParam_spec hb).2 hsixteen, if_true, Bool.false_eq_true, if_false]
        rfl
      · obtain ⟨hdigit, hsemi, hquery⟩ := isAlpha_ne halpha
        simp only [processCsi, hdigit, hsemi, hquery, halpha,
          (endLastParam_spec hb).2 ⟨hdigits.mp hdig, hsixteen⟩, if_true, Bool.false_eq_true, if_false]
        rfl

theorem always_bounded_iff {con : Console} {s : Scan} {bytes : List Byte}
    (hs : Tracks con.term.ansiCtx s) (hb : con.term.ansiCtx.Bounded) :
    Always ansiProcessChar (fun t => t.term.ansiCtx.Bounded) con bytes ↔ AtMostSixteen s bytes := by
  induction bytes generalizing con s with
  | nil => exact iff_of_true hb trivial
  | cons c rest ih =>
      by_cases hfull : s.Overfull c
      · rw [Always, AtMostSixteen, ansiProcessChar_overrun hs hb hfull]
        simp [hfull]
      · obtain ⟨con', hrun, hs', hb', -⟩ := ansiProcessChar_tracks hs hb hfull
        rw [Always, AtMostSixteen, ← ih hs' hb', hrun]
        simp [hfull, hb]

/-- The context that `ansi_init` leaves in a terminal. -/
def Console.ansiReset (con : Console) : Console := con.setCtx (ansiInit con.term.ansiCtx)

/-- From the state set by `ansi_init` every write to `ansi_buf` and `ansi_params` stays
inside its array, and both counters stay within their bounds, after every part of the
bytes, exactly if no control sequence carries more than sixteen parameters. -/
theorem ansi_run_bounded (con : Console) (bytes : List Byte) :
    (∀ seen, seen <+: bytes → ∃ t, seen.foldlM ansiProcessChar con.ansiReset = .ok t ∧
        t.term.ansiCtx.ansiBufIdx ≤ 63 ∧ t.term.ansiCtx.ansiParamCount ≤ 16) ↔
      AtMostSixteen .text bytes :=
  always_iff.symm.trans
    (@always_bounded_iff con.ansiReset .text bytes rfl ⟨Nat.zero_le _, Nat.zero_le _⟩)

/-- A terminal of 80 by 25 cells with a freshly initialised parser. -/
def demoConsole : Console where
  term :=
    { col := 0, row := 0, maxCols := 80, maxRows := 25, fgColor := vbeColorWhite,
      bgColor := vbeColorBlack, fontWidth := 8, fontHeight := 16,
      ansiCtx :=
        { state := .normal, ansiPrivate := 0, ansiBuf := Vector.replicate 64 0#8, ansiBufIdx := 0,
          ansiParams := Vector.replicate 16 0, ansiParamCount := 0, savedRow := 0, savedCol := 0,
          cursorEnabled := true } }
  cursorVisible := true
  screenWidth := 640
  output := []

/-- `ESC [` and seventeen semicolons: the last one writes to `ansi_params[16]`. -/
theorem ansi_seventeen_params :
    ¬ ∀ (con : Console) (bytes seen : List Byte), seen <+: bytes →
      ∃ t, seen.foldlM ansiProcessChar con.ansiReset = .ok t ∧
        t.term.ansiCtx.ansiBufIdx ≤ 63 ∧ t.term.ansiCtx.ansiParamCount ≤ 16 := by
  intro h
  obtain ⟨t, hrun, -⟩ := h demoConsole (27#8 :: ascii '[' :: List.replicate 17 (ascii ';')) _
    List.prefix_rfl
  have herror : (27#8 :: ascii '[' :: List.replicate 17 (ascii ';')).foldlM ansiProcessChar
      demoConsole.ansiReset = .error (.ansiParams 16) := by rfl
  rw [herror] at hrun
  cases hrun

end Frostix.Tty
