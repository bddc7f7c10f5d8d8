import Frostix.Tty.Parser

/-!
The cursor stays on the screen. Every call except the relative movement commands
keeps row and column inside the screen; a movement command keeps them inside exactly
if the 32-bit arithmetic on its parameter does not go wrong. -/
namespace Frostix.Tty

open Machine32 Libc Transition

inductive TermOp where
  | putchar (c : Byte)
  | clear
  | setCursor (row col : Int)
  deriving DecidableEq

def exec (con : Console) : TermOp → Except Overrun Console
  | .putchar c => terminalPutchar con c
  | .clear => .ok (terminalClear con)
  | .setCursor row col => .ok (terminalSetCursor con row col)

def printed : List TermOp → List Byte
  | [] => []
  | .putchar c :: rest => c :: printed rest
  | _ :: rest => printed rest

def Terminal.Inside (term : Terminal) : Prop :=
  term.row.toNat < term.maxRows.toNat ∧ term.col.toNat < term.maxCols.toNat

def Terminal.SavedInside (term : Terminal) : Prop :=
  term.ansiCtx.savedRow.toNat < term.maxRows.toNat ∧ term.ansiCtx.savedCol.toNat < term.maxCols.toNat

/-- A movement command with parameter `n` does not leave the screen: towards the
origin the parameter is not negative, away from it the sum does not overflow to a
negative number, or else the truncation to 16 bits happens to end on the screen. -/
def Terminal.MoveOk (term : Terminal) (cmd : Byte) (n : Int) : Prop :=
  let row : Int := term.row.toNat
  let col : Int := term.col.toNat
  (cmd = ascii 'A' → 0 ≤ n ∨ (row - n) % 65536 < term.maxRows.toNat) ∧
  (cmd = ascii 'B' → 0 ≤ sint (row + n) ∨ (row + n) % 65536 < term.maxRows.toNat) ∧
  (cmd = ascii 'C' → 0 ≤ sint (col + n) ∨ (col + n) % 65536 < term.maxCols.toNat) ∧
  (cmd = ascii 'D' → 0 ≤ n ∨ (col - n) % 65536 < term.maxCols.toNat)

/-- If the call completes a movement command, that command does not leave the screen. -/
def TermOp.MoveOk (con : Console) : TermOp → Prop
  | .putchar c => con.term.ansiCtx.state = .csi → con.term.MoveOk c con.term.ansiCtx.firstParam
  | _ => True

/-- Every movement command among the calls is in order when it is reached. -/
def MovesOk : Console → List TermOp → Prop
  | _, [] => True
  | con, op :: rest => op.MoveOk con ∧ ∀ con', exec con op = .ok con' → MovesOk con' rest

theorem toNat_pred {x : UInt16} (h : 0 < x.toNat) : (x - 1).toNat = x.toNat - 1 := by
  rw [UInt16.toNat_sub_of_le x 1 (UInt16.le_iff_toNat_le.mpr h), UInt16.toNat_one]

theorem clamped_inside {x : Int} {limit : UInt16} (h : 0 < limit.toNat) :
    (u16 (min (max x 0) ((limit.toNat : Int) - 1))).toNat < limit.toNat := by
  have hlimit := limit.toNat_lt
  have hval := @toNat_u16_of_range (min (max x 0) ((limit.toNat : Int) - 1)) (by omega) (by omega)
  omega

theorem away_inside_iff {at' limit : UInt16} {n : Int} (h : at'.toNat < limit.toNat) :
    (u16 (min ((limit.toNat : Int) - 1) (sint (at'.toNat + n)))).toNat < limit.toNat ↔
      0 ≤ sint (at'.toNat + n) ∨ ((at'.toNat : Int) + n) % 65536 < limit.toNat := by
  have hlimit := limit.toNat_lt
  by_cases hneg : 0 ≤ sint (at'.toNat + n)
  · have hval := @toNat_u16_of_range (min ((limit.toNat : Int) - 1) (sint (at'.toNat + n)))
      (by omega) (by omega)
    exact iff_of_true (by omega) (Or.inl hneg)
  · rw [min_eq_right (by omega)]
    have hval := toNat_u16_sint (at'.toNat + n)
    constructor
    · exact fun hlt => Or.inr (by omega)
    · rintro (hpos | hlt)
      · exact absurd hpos hneg
      · omega

theorem back_inside_iff {at' limit : UInt16} {n : Int} (h : at'.toNat < limit.toNat) :
    (if (at'.toNat : Int) > n then u16 (sint (at'.toNat - n)) else 0).toNat < limit.toNat ↔
      0 ≤ n ∨ ((at'.toNat : Int) - n) % 65536 < limit.toNat := by
  have hlimit := limit.toNat_lt
  have hval := toNat_u16_sint (at'.toNat - n)
  split_ifs with hgt
  · by_cases hn : 0 ≤ n
    · exact iff_of_true (by omega) (Or.inl hn)
    · constructor
      · exact fun hlt => Or.inr (by omega)
      · rintro (hpos | hlt)
        · exact absurd hpos hn
        · omega
  · exact iff_of_true (by simp only [UInt16.toNat_zero]; omega) (Or.inl (by omega))

theorem relative_inside_iff {con : Console} {cmd : Byte} (hin : con.term.Inside)
    (hcmd : cmd = ascii 'A' ∨ cmd = ascii 'B' ∨ cmd = ascii 'C' ∨ cmd = ascii 'D') :
    (handleAnsiCommand con cmd).term.Inside ↔ con.term.MoveOk cmd (con.term.ansiCtx.param 0 1) := by
  obtain ⟨hrow, hcol⟩ := hin
  rcases hcmd with rfl | rfl | rfl | rfl
  · have hmove := @back_inside_iff _ _ (con.term.ansiCtx.param 0 1) hrow
    simp only [Terminal.MoveOk, forall_const, ← hmove,
      show (ascii 'A' = ascii 'B') = False by decide, show (ascii 'A' = ascii 'C') = False by decide,
      show (ascii 'A' = ascii 'D') = False by decide, false_implies, and_true]
    exact and_iff_left hcol
  · have hmove := @away_inside_iff _ _ (con.term.ansiCtx.param 0 1) hrow
    simp only [Terminal.MoveOk, forall_const, ← hmove,
      show (ascii 'B' = ascii 'A') = False by decide, show (ascii 'B' = ascii 'C') = False by decide,
      show (ascii 'B' = ascii 'D') = False by decide, false_implies, and_true, true_and]
    exact and_iff_left hcol
  · have hmove := @away_inside_iff _ _ (con.term.ansiCtx.param 0 1) hcol
    simp only [Terminal.MoveOk, forall_const, ← hmove,
      show (ascii 'C' = ascii 'A') = False by decide, show (ascii 'C' = ascii 'B') = False by decide,
      show (ascii 'C' = ascii 'D') = False by decide, false_implies, and_true, true_and]
    exact and_iff_right hrow
  · have hmove := @back_inside_iff _ _ (con.term.ansiCtx.param 0 1) hcol
    simp only [Terminal.MoveOk, forall_const, ← hmove,
      show (ascii 'D' = ascii 'A') = False by decide, show (ascii 'D' = ascii 'B') = False by decide,
      show (ascii 'D' = ascii 'C') = False by decide, false_implies, true_and]
    exact and_iff_right hrow

/-- Every other command keeps the cursor inside. -/
theorem other_command_inside {con : Console} {cmd : Byte} (hin : con.term.Inside)
    (hsaved : con.term.SavedInside) (hA : cmd ≠ ascii 'A') (hB : cmd ≠ ascii 'B')
    (hC : cmd ≠ ascii 'C') (hD : cmd ≠ ascii 'D') : (handleAnsiCommand con cmd).term.Inside := by
  have hrows : 0 < con.term.maxRows.toNat := Nat.zero_lt_of_lt hin.1
  have hcols : 0 < con.term.maxCols.toNat := Nat.zero_lt_of_lt hin.2
  by_cases hH : cmd = ascii 'H'
  · subst hH
    exact ⟨clamped_inside hrows, clamped_inside hcols⟩
  by_cases hJ : cmd = ascii 'J'
  · subst hJ
    change (eraseDisplay con).term.Inside
    unfold eraseDisplay
    dsimp only
    split_ifs
    · exact ⟨hrows, hcols⟩
    · exact hin
  by_cases hK : cmd = ascii 'K'
  · subst hK
    exact hin
  by_cases hm : cmd = ascii 'm'
  · subst hm
    obtain ⟨fg, bg, hkeep⟩ := selectGraphics_keeps con
      (con.term.ansiCtx.ansiParams.toList.take con.term.ansiCtx.ansiParamCount)
    change (selectGraphics con
      (con.term.ansiCtx.ansiParams.toList.take con.term.ansiCtx.ansiParamCount)).term.Inside
    rw [hkeep]
    exact hin
  by_cases hs : cmd = ascii 's'
  · subst hs
    exact hin
  by_cases hu : cmd = ascii 'u'
  · subst hu
    exact hsaved
  by_cases hn : cmd = ascii 'n'
  · subst hn
    change (deviceStatus con).term.Inside
    unfold deviceStatus
    dsimp only
    split_ifs <;> exact hin
  · have hnone : handleAnsiCommand con cmd = con := by
      simp only [handleAnsiCommand, moveCursor, saveRestore, hA, hB, hC, hD, hH, hJ, hK, hm, hs, hu, hn,
        if_false]
    rw [hnone]
    exact hin

/-- A command keeps the cursor on the screen exactly if it is no relative movement or
one that is in order. -/
theorem handleAnsiCommand_inside {con : Console} {cmd : Byte} (hin : con.term.Inside)
    (hsaved : con.term.SavedInside) :
    (handleAnsiCommand con cmd).term.Inside ↔ con.term.MoveOk cmd (con.term.ansiCtx.param 0 1) := by
  by_cases hcmd : cmd = ascii 'A' ∨ cmd = ascii 'B' ∨ cmd = ascii 'C' ∨ cmd = ascii 'D'
  · exact relative_inside_iff hin hcmd
  · simp only [not_or] at hcmd
    obtain ⟨hA, hB, hC, hD⟩ := hcmd
    exact iff_of_true (other_command_inside hin hsaved hA hB hC hD)
      ⟨fun h => absurd h hA, fun h => absurd h hB, fun h => absurd h hC, fun h => absurd h hD⟩

theorem handleAnsiCommand_saved {con : Console} {cmd : Byte} (hin : con.term.Inside)
    (hsaved : con.term.SavedInside) : (handleAnsiCommand con cmd).term.SavedInside := by
  by_cases hs : cmd = ascii 's'
  · subst hs
    exact hin
  · obtain ⟨row, col, fg, bg, savedRow, savedCol, hkeep, hsame⟩ := handleAnsiCommand_keeps con cmd
    obtain ⟨rfl, rfl⟩ := hsame hs
    rw [hkeep]
    exact hsaved

/-- What the calls keep: both cursors on the screen, the parser in step with the bytes
printed so far and inside its buffers. -/
structure Safe (con : Console) (s : Scan) : Prop where
  inside : con.term.Inside
  saved : con.term.SavedInside
  tracks : Tracks con.term.ansiCtx s
  bounded : con.term.ansiCtx.Bounded

@[simp] theorem terminalToggleCursor_term (con : Console) :
    (terminalToggleCursor con).term = con.term := by
  unfold terminalToggleCursor terminalDrawCursor
  dsimp only
  split_ifs <;> rfl

theorem wrapLine_spec {con : Console} (hcols : 0 < con.term.maxCols.toNat)
    (hrow : con.term.row.toNat < con.term.maxRows.toNat) :
    ∃ row col, (wrapLine con).term = { con.term with row, col } ∧
      row.toNat ≤ con.term.maxRows.toNat ∧ col.toNat < con.term.maxCols.toNat := by
  have hlimit := con.term.maxRows.toNat_lt
  unfold wrapLine
  split_ifs with hle
  · refine ⟨_, _, rfl, ?_, hcols⟩
    rw [UInt16.toNat_add, UInt16.toNat_one]
    omega
  · exact ⟨_, _, rfl, hrow.le, by simpa [UInt16.le_iff_toNat_le] using hle⟩

theorem putText_spec {con : Console} (hin : con.term.Inside) (c : Byte) :
    ∃ row col, (putText con c).term = { con.term with row, col } ∧
      row.toNat ≤ con.term.maxRows.toNat ∧ col.toNat < con.term.maxCols.toNat := by
  obtain ⟨hrow, hcol⟩ := hin
  have hcols : 0 < con.term.maxCols.toNat := Nat.zero_lt_of_lt hcol
  have hlimit := con.term.maxRows.toNat_lt
  unfold putText
  dsimp only
  split_ifs
  · refine ⟨_, _, rfl, ?_, hcols⟩
    rw [UInt16.toNat_add, UInt16.toNat_one]
    omega
  · exact ⟨_, _, rfl, hrow.le, hcols⟩
  · unfold stepBack renderAtCursor
    dsimp only
    split_ifs with hback hup
    · refine ⟨_, _, rfl, hrow.le, ?_⟩
      rw [toNat_pred (UInt16.lt_iff_toNat_lt.mp hback)]
      omega
    · refine ⟨_, _, rfl, ?_, ?_⟩
      · rw [toNat_pred (UInt16.lt_iff_toNat_lt.mp hup)]
        omega
      · rw [toNat_pred hcols]
        omega
    · exact ⟨_, _, rfl, hrow.le, hcol⟩
  · exact wrapLine_spec hcols hrow
  · exact wrapLine_spec hcols hrow
  · exact ⟨_, _, rfl, hrow.le, hcol⟩

theorem scroll_spec {con : Console} (hrows : 0 < con.term.maxRows.toNat) :
    ∃ row, (scroll con).term = { con.term with row } ∧ row.toNat < con.term.maxRows.toNat := by
  unfold scroll
  dsimp only
  split_ifs with hle
  · refine ⟨_, rfl, ?_⟩
    rw [toNat_pred hrows]
    omega
  · exact ⟨_, rfl, by simpa [UInt16.le_iff_toNat_le] using hle⟩

theorem putchar_text {con : Console} (h : Safe con .text) {c : Byte} (hc : c ≠ 27#8) :
    ∃ con', terminalPutchar con c = .ok con' ∧ Safe con' .text := by
  have hstate : con.term.ansiCtx.state = .normal := h.tracks
  have hrows : 0 < con.term.maxRows.toNat := Nat.zero_lt_of_lt h.inside.1
  obtain ⟨row, col, htext, -, hcol⟩ := @putText_spec (terminalToggleCursor con)
    (by rw [terminalToggleCursor_term]; exact h.inside) c
  rw [terminalToggleCursor_term] at htext hcol
  obtain ⟨row', hscroll, hrow'⟩ := @scroll_spec (putText (terminalToggleCursor con) c)
    (by rw [htext]; exact hrows)
  rw [htext] at hscroll hrow'
  have hterm : (terminalToggleCursor (scroll (putText (terminalToggleCursor con) c))).term =
      { con.term with row := row', col } := by rw [terminalToggleCursor_term, hscroll]
  refine ⟨_, by rw [terminalPutchar, if_pos hstate, if_neg hc]; rfl, ?_, ?_, ?_, ?_⟩ <;> rw [hterm]
  · exact ⟨hrow', hcol⟩
  · exact h.saved
  · exact h.tracks
  · exact h.bounded

theorem putchar_escape {con : Console} (h : Safe con .text) :
    ∃ con', terminalPutchar con 27#8 = .ok con' ∧ Safe con' .escape := by
  have hstate : con.term.ansiCtx.state = .normal := h.tracks
  have htoggle : (terminalToggleCursor con).term = con.term := terminalToggleCursor_term con
  obtain ⟨con', hrun, hs, hb, hkeep⟩ := @ansiProcessChar_tracks (terminalToggleCursor con) .text 27#8
    (by rw [htoggle]; exact h.tracks) (by rw [htoggle]; exact h.bounded) id
  obtain ⟨ctx', rfl, hsaved⟩ := hkeep (by simp [hstate])
  have hscroll : scroll ((terminalToggleCursor con).setCtx ctx') = (terminalToggleCursor con).setCtx ctx' :=
    if_neg (by simpa [UInt16.le_iff_toNat_le, Console.setCtx] using h.inside.1)
  refine ⟨_, by rw [terminalPutchar, if_pos hstate, if_pos rfl, hrun]; rfl, ?_, ?_, ?_, ?_⟩ <;>
    rw [terminalToggleCursor_term, hscroll]
  · simpa [Console.setCtx, htoggle, Terminal.Inside] using h.inside
  · have hsaved' := h.saved
    simp only [Terminal.SavedInside, Console.setCtx, hsaved.1, hsaved.2, htoggle]
    exact hsaved'
  · exact hs
  · exact hb

/-- A byte of a control sequence keeps the cursor inside exactly if it dispatches no
movement or one that is in order. -/
theorem putchar_sequence {con : Console} {s : Scan} (h : Safe con s) {c : Byte}
    (hstate : con.term.ansiCtx.state ≠ .normal) (hroom : ¬ s.Overfull c) :
    ∃ con', terminalPutchar con c = .ok con' ∧ con'.term.SavedInside ∧
      Tracks con'.term.ansiCtx (s.next c) ∧ con'.term.ansiCtx.Bounded ∧
      (con'.term.Inside ↔ (TermOp.putchar c).MoveOk con) := by
  obtain ⟨con', hrun, hs, hb, hkeep⟩ := ansiProcessChar_tracks h.tracks h.bounded hroom
  rw [terminalPutchar, if_neg hstate]
  by_cases hletter : con.term.ansiCtx.state = .csi ∧ isAlpha c = true
  · obtain ⟨hcsi, halpha⟩ := hletter
    obtain ⟨hdigit, hsemi, hquery⟩ := isAlpha_ne halpha
    have hprocess : ansiProcessChar con c = processCsi con c := by
      simp only [ansiProcessChar, hcsi]
    rw [hprocess] at hrun ⊢
    by_cases hlast : 0 < con.term.ansiCtx.ansiBufIdx ∧ con.term.ansiCtx.ansiParamCount = 16
    · simp only [processCsi, hdigit, hsemi, hquery, halpha, (endLastParam_spec h.bounded).2 hlast,
        Bool.false_eq_true, if_false, if_true] at hrun
      cases hrun
    · obtain ⟨ctx, hend, hsaved, -⟩ := (endLastParam_spec h.bounded).1 hlast
      have hsaved' : (con.setCtx ctx).term.SavedInside := by
        simp only [Terminal.SavedInside, Console.setCtx, hsaved.1, hsaved.2]
        exact h.saved
      have hfirst : con.term.ansiCtx.firstParam = ctx.param 0 1 := by
        rw [AnsiContext.firstParam, hend]
      rw [processCsi_letter hdigit hsemi hquery halpha hend] at hrun ⊢
      refine ⟨_, rfl, @handleAnsiCommand_saved (con.setCtx ctx) c h.inside hsaved', ?_, ?_, ?_⟩
      · cases hrun
        exact hs
      · cases hrun
        exact hb
      · refine (@handleAnsiCommand_inside (con.setCtx ctx) c h.inside hsaved').trans ?_
        simp only [TermOp.MoveOk, hcsi, forall_const, hfirst]
        exact Iff.rfl
  · obtain ⟨ctx', rfl, hsaved⟩ := hkeep hletter
    refine ⟨_, hrun, ?_, hs, hb, iff_of_true h.inside ?_⟩
    · simp only [Terminal.SavedInside, Console.setCtx, hsaved.1, hsaved.2]
      exact h.saved
    · -- the movement commands are letters
      intro hcsi
      have hno : ∀ d, isAlpha d = true → c ≠ d := by
        rintro d hd rfl
        exact hletter ⟨hcsi, hd⟩
      exact ⟨fun hc => absurd hc (hno _ (by decide)), fun hc => absurd hc (hno _ (by decide)),
        fun hc => absurd hc (hno _ (by decide)), fun hc => absurd hc (hno _ (by decide))⟩

def TermOp.next (s : Scan) : TermOp → Scan
  | .putchar c => s.next c
  | _ => s

/-- One call from a safe state: it comes back, and the cursor is inside exactly if the
call is in order. -/
theorem exec_spec {con : Console} {s : Scan} {op : TermOp} (h : Safe con s)
    (hroom : ∀ c, op = .putchar c → ¬ s.Overfull c) :
    ∃ con', exec con op = .ok con' ∧ (con'.term.Inside ↔ op.MoveOk con) ∧
      (con'.term.Inside → Safe con' (op.next s)) := by
  have hrows : 0 < con.term.maxRows.toNat := Nat.zero_lt_of_lt h.inside.1
  have hcols : 0 < con.term.maxCols.toNat := Nat.zero_lt_of_lt h.inside.2
  cases op with
  | putchar c =>
      by_cases hstate : con.term.ansiCtx.state = .normal
      · have hok : (TermOp.putchar c).MoveOk con := fun hcsi => by
          rw [hstate] at hcsi
          cases hcsi
        have htext : s = .text := by
          cases s with
          | text => rfl
          | escape => exact absurd (hstate.symm.trans h.tracks.1) (by decide)
          | csi closed digits => exact absurd (hstate.symm.trans h.tracks.1) (by decide)
        subst htext
        by_cases hc : c = 27#8
        · subst hc
          obtain ⟨con', hrun, hsafe⟩ := putchar_escape h
          exact ⟨con', hrun, iff_of_true hsafe.inside hok, fun _ => hsafe⟩
        · obtain ⟨con', hrun, hsafe⟩ := putchar_text h hc
          refine ⟨con', hrun, iff_of_true hsafe.inside hok, fun _ => ?_⟩
          rw [TermOp.next, Scan.next, if_neg hc]
          exact hsafe
      · obtain ⟨con', hrun, hsaved, hs, hb, hiff⟩ := putchar_sequence h hstate (hroom c rfl)
        exact ⟨con', hrun, hiff, fun hin => ⟨hin, hsaved, hs, hb⟩⟩
  | clear =>
      have hterm : (terminalClear con).term = { con.term with row := 0, col := 0 } := by
        simp [terminalClear, Console.moveTo, Console.emit]
      refine ⟨_, rfl, iff_of_true ?_ trivial, fun _ => ⟨?_, ?_, ?_, ?_⟩⟩ <;> rw [hterm]
      · exact ⟨hrows, hcols⟩
      · exact ⟨hrows, hcols⟩
      · exact h.saved
      · exact h.tracks
      · exact h.bounded
  | setCursor row col =>
      have hterm : (terminalSetCursor con row col).term = { con.term with
          row := u16 (min (max row 0) ((con.term.maxRows.toNat : Int) - 1))
          col := u16 (min (max col 0) ((con.term.maxCols.toNat : Int) - 1)) } := by
        simp [terminalSetCursor, Console.moveTo]
      refine ⟨_, rfl, iff_of_true ?_ trivial, fun _ => ⟨?_, ?_, ?_, ?_⟩⟩ <;> rw [hterm]
      · exact ⟨clamped_inside hrows, clamped_inside hcols⟩
      · exact ⟨clamped_inside hrows, clamped_inside hcols⟩
      · exact h.saved
      · exact h.tracks
      · exact h.bounded

theorem always_inside_iff {con : Console} {s : Scan} {ops : List TermOp} (h : Safe con s)
    (hsixteen : AtMostSixteen s (printed ops)) :
    Always exec (fun t => t.term.Inside) con ops ↔ MovesOk con ops := by
  induction ops generalizing con s with
  | nil => exact iff_of_true h.inside trivial
  | cons op rest ih =>
      have hroom : ∀ c, op = .putchar c → ¬ s.Overfull c := by
        rintro c rfl
        exact hsixteen.1
      have hrest : AtMostSixteen (op.next s) (printed rest) := by
        cases op with
        | putchar c => exact hsixteen.2
        | clear => exact hsixteen
        | setCursor row col => exact hsixteen
      obtain ⟨con', hrun, hiff, hsafe⟩ := exec_spec h hroom
      simp only [Always, MovesOk, hrun, Except.ok.injEq, exists_eq_left', forall_eq', h.inside, true_and,
        ← hiff]
      constructor
      · intro halways
        have hin : con'.term.Inside := by
          cases rest with
          | nil => exact halways
          | cons op' rest' => exact halways.1
        exact ⟨hin, (ih (hsafe hin) hrest).mp halways⟩
      · rintro ⟨hin, hmoves⟩
        exact (ih (hsafe hin) hrest).mpr hmoves

/-- From row 0 and column 0 with a fresh parser, for printed bytes whose control
sequences carry at most sixteen parameters: the cursor is on the screen after every
call exactly if every relative movement command is in order when it is reached. -/
theorem cursor_run_inside (con : Console) (hcols : 1 ≤ con.term.maxCols.toNat)
    (hrows : 1 ≤ con.term.maxRows.toNat) (hrow : con.term.row = 0) (hcol : con.term.col = 0)
    (ops : List TermOp) (hsixteen : AtMostSixteen .text (printed ops)) :
    (∀ seen, seen <+: ops → ∃ t, seen.foldlM exec con.ansiReset = .ok t ∧
        t.term.row.toNat < t.term.maxRows.toNat ∧ t.term.col.toNat < t.term.maxCols.toNat) ↔
      MovesOk con.ansiReset ops := by
  have hsafe : Safe con.ansiReset .text :=
    { inside := ⟨by simp only [Console.ansiReset, Console.setCtx, hrow]; exact hrows,
        by simp only [Console.ansiReset, Console.setCtx, hcol]; exact hcols⟩
      saved := ⟨hrows, hcols⟩
      tracks := rfl
      bounded := ⟨Nat.zero_le _, Nat.zero_le _⟩ }
  exact always_iff.symm.trans (always_inside_iff hsafe hsixteen)

/-- `ESC [ n B`. -/
def cursorDown (n : List Char) : List TermOp :=
  .putchar 27#8 :: .putchar (ascii '[') ::
    n.map (fun d => TermOp.putchar (ascii d)) ++ [.putchar (ascii 'B')]

theorem cursor_run_inside_demo :
    AtMostSixteen .text (printed (cursorDown ['5'])) ∧
      ((∀ seen, seen <+: cursorDown ['5'] → ∃ t, seen.foldlM exec demoConsole.ansiReset = .ok t ∧
          t.term.row.toNat < t.term.maxRows.toNat ∧ t.term.col.toNat < t.term.maxCols.toNat) ↔
        MovesOk demoConsole.ansiReset (cursorDown ['5'])) :=
  ⟨by decide, cursor_run_inside demoConsole (by decide) (by decide) rfl rfl (cursorDown ['5']) (by decide)⟩

/-- `ESC [ 4294967295 B`: the parameter is read as -1, and the row above the first is
stored as 65535. -/
theorem cursor_below_screen :
    ¬ ∀ (con : Console) (ops seen : List TermOp), 1 ≤ con.term.maxCols.toNat →
      1 ≤ con.term.maxRows.toNat → con.term.row = 0 → con.term.col = 0 →
      AtMostSixteen .text (printed ops) → seen <+: ops →
      ∃ t, seen.foldlM exec con.ansiReset = .ok t ∧
        t.term.row.toNat < t.term.maxRows.toNat ∧ t.term.col.toNat < t.term.maxCols.toNat := by
  intro h
  obtain ⟨t, hrun, hrow, -⟩ := h demoConsole (cursorDown "4294967295".toList) _ (by decide) (by decide)
    rfl rfl (by decide) List.prefix_rfl
  have hend : ((cursorDown "4294967295".toList).foldlM exec demoConsole.ansiReset).map
      (fun t => (t.term.row.toNat, t.term.maxRows.toNat)) = .ok (65535, 25) := by decide +kernel
  rw [hrun] at hend
  obtain ⟨hr, hm⟩ := Prod.mk.inj (Except.ok.inj hend)
  omega

end Frostix.Tty
