import Frostix.Libc.PrintfRead
import Frostix.Tty.Decoder

/-!
What the terminal announces on the serial line. Colours and positions go out as control
sequences of the kind that the terminal itself reads. -/
namespace Frostix.Tty

open Machine32 ByteMemory Libc Libc.Printf

/-- The formats of `serial_set_ansi_fg` and `serial_set_ansi_bg` differ in one character. -/
def colorFormat (ground : Char) : List Byte := (['\x1b', '['] ++ ground :: "8;2;%u;%u;%um".toList).map ascii

def colorArgs (c : VbeColor) : VaList := fun i =>
  [c.red.setWidth 32, c.green.setWidth 32, c.blue.setWidth 32].getD i 0#32

def reportFormat : List Byte := "\x1b[%d;%dR".toList.map ascii

def reportArgs (row col : Int) : VaList := fun i => [BitVec.ofInt 32 row, BitVec.ofInt 32 col].getD i 0#32

/-- The bytes that a request puts on the serial line. A position goes through a buffer of 32
bytes. -/
def announced (m : Mem) : Output → Option (List Byte)
  | .serialFg color => formatText m (colorFormat '3') (colorArgs color)
  | .serialBg color => formatText m (colorFormat '4') (colorArgs color)
  | .cursorReport row col => (formatText m reportFormat (reportArgs row col)).map (·.take (32 - 1))
  | .fillRect .. | .blit .. | .renderChar .. => some []

def announcedCommand : Output → Option (Byte × List Int)
  | .serialFg color => some (ascii 'm', [38, 2, color.red.toNat, color.green.toNat, color.blue.toNat])
  | .serialBg color => some (ascii 'm', [48, 2, color.red.toNat, color.green.toNat, color.blue.toNat])
  | .cursorReport row col => some (ascii 'R', [row, col])
  | .fillRect .. | .blit .. | .renderChar .. => none

/-- What the terminal makes of the announcement of another one. A colour of a sequence is opaque. -/
def echo (con : Console) : Output → Console
  | .serialFg color => (setFg con (.rgb color.red color.green color.blue)).emit
      (.serialFg (.rgb color.red color.green color.blue))
  | .serialBg color => (setBg con (.rgb color.red color.green color.blue)).emit
      (.serialBg (.rgb color.red color.green color.blue))
  | _ => con

theorem digitChar_addDigit :
    ∀ (value : Nat) (d : Fin 10), addDigit value (digitChar false d) = value * 10 + d := by
  intro value d
  rw [addDigit, (isDigit_digitChar false d).2]

theorem decimal_zeroPadded (width value : Nat) : decimal (zeroPadded 10 width value) = value := by
  have hzeros : ∀ n, (List.replicate n (ascii '0')).foldl addDigit 0 = 0 := by
    intro n
    induction n with
    | zero => rfl
    | succ n ih => exact ih
  have hdigits : ∀ l : List Nat, (∀ d ∈ l, d < 10) →
      ((l.map (digitChar false)).reverse).foldl addDigit 0 = Nat.ofDigits 10 l := by
    intro l hl
    rw [List.foldl_reverse]
    induction l with
    | nil => rfl
    | cons d l ih =>
        have hd := hl d List.mem_cons_self
        rw [List.map_cons, List.foldr_cons, ih fun e he => hl e (List.mem_cons_of_mem d he),
          digitChar_addDigit _ ⟨d, hd⟩, Nat.ofDigits_cons]
        exact Nat.add_comm _ _ |>.trans (by rw [Nat.mul_comm])
  rw [decimal, zeroPadded, List.foldl_append, hzeros, hdigits _ (numeral_lt (by decide) value), ofDigits_numeral]

theorem zeroPadded_isParam {value : Nat} (h : value < 2 ^ 31) : IsParam (zeroPadded 10 0 value) := by
  have hlen : (numeral 10 value).length ≤ 10 := (numeral_length_le_iff (by decide) (by decide) _).mpr (by omega)
  refine ⟨fun c hc => ?_, ?_, ?_⟩
  · rcases List.mem_append.mp hc with hc | hc
    · rw [List.eq_of_mem_replicate hc]
      decide
    · obtain ⟨d, hd, rfl⟩ := List.mem_map.mp (List.mem_reverse.mp hc)
      exact (isDigit_digitChar false ⟨d, numeral_lt (by decide) value d hd⟩).1
  · rw [zeroPadded_length]
    omega
  · rw [decimal_zeroPadded]
    exact h

/-- A number that fits an `int`, printed by `%u` or `%d`. -/
theorem ntoaText_param {value : Nat} (h : value < 2 ^ 31) :
    ntoaText value false 10 0 0 {} = zeroPadded 10 0 value :=
  ntoaText_digits (by decide)
    (le_trans ((numeral_length_le_iff (by decide) (k := 10) (by decide) _).mpr (by omega)) (by decide))

theorem zeroPadded_ne_nil (value : Nat) : zeroPadded 10 0 value ≠ [] := by
  have hlen := zeroPadded_length 10 0 value false
  have hpos := numeral_length_pos 10 value
  intro hnil
  rw [hnil, List.length_nil] at hlen
  omega

theorem colorText_eq (m : Mem) (color : VbeColor) (ground : Char) (hground : ground = '3' ∨ ground = '4') :
    formatText m (colorFormat ground) (colorArgs color) = some (controlSequence
      [[ascii ground, ascii '8'], [ascii '2'], zeroPadded 10 0 color.red.toNat, zeroPadded 10 0 color.green.toNat,
        zeroPadded 10 0 color.blue.toNat] (ascii 'm')) := by
  have hfield : ∀ b : Byte, ntoaText (b.setWidth 32).toNat false 10 0 0 {} = zeroPadded 10 0 b.toNat := by
    intro b
    rw [BitVec.toNat_setWidth_of_le (by decide)]
    exact ntoaText_param (by have := b.isLt; omega)
  have hread : formatText m (colorFormat ground) (colorArgs color) = some (27#8 :: ascii '[' :: ascii ground ::
      ascii '8' :: ascii ';' :: ascii '2' :: ascii ';' ::
        (ntoaText (color.red.setWidth 32).toNat false 10 0 0 {} ++ ascii ';' ::
          (ntoaText (color.green.setWidth 32).toNat false 10 0 0 {} ++ ascii ';' ::
            (ntoaText (color.blue.setWidth 32).toNat false 10 0 0 {} ++ [ascii 'm'])))) := by
    rcases hground with rfl | rfl <;> rfl
  rw [hread, hfield, hfield, hfield]
  simp [controlSequence, List.intercalate, List.intersperse]

theorem reportText_eq (m : Mem) {row col : Nat} (hrow : row < 2 ^ 31) (hcol : col < 2 ^ 31) :
    formatText m reportFormat (reportArgs row col) =
      some (controlSequence [zeroPadded 10 0 row, zeroPadded 10 0 col] (ascii 'R')) := by
  have hvalue : ∀ n : Nat, n < 2 ^ 31 → (BitVec.ofInt 32 n).toInt = n := by
    intro n hn
    rw [BitVec.toInt_ofInt, Int.bmod_eq_of_le] <;> omega
  have hfield : ∀ n : Nat, n < 2 ^ 31 → ntoaText (BitVec.ofInt 32 n).toInt.natAbs ((BitVec.ofInt 32 n).toInt < 0)
      10 0 0 {} = zeroPadded 10 0 n := by
    intro n hn
    have hsign : decide ((n : Int) < 0) = false := decide_eq_false (by omega)
    rw [hvalue n hn, hsign, Int.natAbs_natCast]
    exact ntoaText_param hn
  have hread : formatText m reportFormat (reportArgs row col) = some (27#8 :: ascii '[' ::
      (ntoaText (BitVec.ofInt 32 row).toInt.natAbs ((BitVec.ofInt 32 row).toInt < 0) 10 0 0 {} ++ ascii ';' ::
        (ntoaText (BitVec.ofInt 32 col).toInt.natAbs ((BitVec.ofInt 32 col).toInt < 0) 10 0 0 {} ++
          [ascii 'R']))) := rfl
  rw [hread, hfield row hrow, hfield col hcol]
  simp [controlSequence, List.intercalate, List.intersperse]

theorem selectGraphics_color (con : Console) (color : VbeColor) :
    selectGraphics con [38, 2, color.red.toNat, color.green.toNat, color.blue.toNat] =
      echo con (.serialFg color) ∧
      selectGraphics con [48, 2, color.red.toNat, color.green.toNat, color.blue.toNat] =
        echo con (.serialBg color) := by
  have hbyte : ∀ b : Byte, BitVec.ofInt 8 b.toNat = b := by
    intro b
    rw [BitVec.ofInt_natCast, BitVec.ofNat_toNat, BitVec.setWidth_eq]
  constructor <;> simp [selectGraphics, echo, hbyte]

theorem decoded_color (ground : Char) (color : VbeColor) (n : Nat) (hn : decimal [ascii ground, ascii '8'] = n) :
    decoded [[ascii ground, ascii '8'], [ascii '2'], zeroPadded 10 0 color.red.toNat,
      zeroPadded 10 0 color.green.toNat, zeroPadded 10 0 color.blue.toNat] =
      [(n : Int), 2, color.red.toNat, color.green.toNat, color.blue.toNat] := by
  simp only [decoded, hn, decimal_zeroPadded, if_neg (zeroPadded_ne_nil _)]
  rfl

theorem decoded_report (r c : Nat) : decoded [zeroPadded 10 0 r, zeroPadded 10 0 c] = [(r : Int), c] := by
  simp only [decoded, decimal_zeroPadded, if_neg (zeroPadded_ne_nil _)]

/-- What the terminal announces, a colour or a position, is text that a terminal reads as one
control sequence: a colour sets the same colour, opaque, and is announced again, a position
changes nothing outside the parser. -/
theorem announcement_read_back (m : Mem) {con : Console} (hstate : con.term.ansiCtx.state = .normal) {o : Output}
    (ho : ∀ row col, o = .cursorReport row col → (0 ≤ row ∧ row < 2 ^ 31) ∧ 0 ≤ col ∧ col < 2 ^ 31) :
    ∃ bytes ctx, announced m o = some bytes ∧ dispatches con bytes = (announcedCommand o).toList ∧
      ctx.state = .normal ∧ bytes.foldlM ansiProcessChar con = .ok ((echo con o).setCtx ctx) := by
  have hparam : ∀ b : Byte, IsParam (zeroPadded 10 0 b.toNat) := fun b =>
    zeroPadded_isParam (by have := b.isLt; omega)
  have hcolor : ∀ (ground : Char) (color : VbeColor), ground = '3' ∨ ground = '4' →
      ∀ p ∈ [[ascii ground, ascii '8'], [ascii '2'], zeroPadded 10 0 color.red.toNat,
        zeroPadded 10 0 color.green.toNat, zeroPadded 10 0 color.blue.toNat], IsParam p := by
    intro ground color hground p hp
    have hcode : IsParam [ascii ground, ascii '8'] := by
      rcases hground with rfl | rfl <;> (unfold IsParam; decide)
    have htwo : IsParam [ascii '2'] := by
      unfold IsParam
      decide
    simp only [List.mem_cons, List.not_mem_nil, or_false] at hp
    rcases hp with rfl | rfl | rfl | rfl | rfl
    · exact hcode
    · exact htwo
    · exact hparam color.red
    · exact hparam color.green
    · exact hparam color.blue
  cases o with
  | fillRect | blit | renderChar => exact ⟨[], con.term.ansiCtx, rfl, rfl, hstate, rfl⟩
  | serialFg color =>
      obtain ⟨hone, ctx, hctx, hrun⟩ := sequence_dispatched hstate (by simp) (hcolor '3' color (.inl rfl))
        (c := ascii 'm') (by decide)
      have hcommand : handleAnsiCommand (con.setCtx ctx) (ascii 'm') =
        selectGraphics (con.setCtx ctx) ctx.params := rfl
      rw [decoded_color '3' color 38 (by decide), Nat.cast_ofNat] at hone hctx
      rw [hcommand, hctx, (selectGraphics_color (con.setCtx ctx) color).1] at hrun
      exact ⟨_, _, colorText_eq m color '3' (.inl rfl), hone, rfl, hrun⟩
  | serialBg color =>
      obtain ⟨hone, ctx, hctx, hrun⟩ := sequence_dispatched hstate (by simp) (hcolor '4' color (.inr rfl))
        (c := ascii 'm') (by decide)
      have hcommand : handleAnsiCommand (con.setCtx ctx) (ascii 'm') =
        selectGraphics (con.setCtx ctx) ctx.params := rfl
      rw [decoded_color '4' color 48 (by decide), Nat.cast_ofNat] at hone hctx
      rw [hcommand, hctx, (selectGraphics_color (con.setCtx ctx) color).2] at hrun
      exact ⟨_, _, colorText_eq m color '4' (.inr rfl), hone, rfl, hrun⟩
  | cursorReport row col =>
      obtain ⟨⟨hrow, hrow'⟩, hcol, hcol'⟩ := ho row col rfl
      obtain ⟨r, rfl⟩ := Int.eq_ofNat_of_zero_le hrow
      obtain ⟨c, rfl⟩ := Int.eq_ofNat_of_zero_le hcol
      have hparams : ∀ param ∈ [zeroPadded 10 0 r, zeroPadded 10 0 c], IsParam param := by
        simp [zeroPadded_isParam (show r < 2 ^ 31 by omega), zeroPadded_isParam (show c < 2 ^ 31 by omega)]
      obtain ⟨hone, ctx, -, hrun⟩ := sequence_dispatched hstate (by simp) hparams (c := ascii 'R') (by decide)
      rw [decoded_report r c] at hone
      have hshort : (controlSequence [zeroPadded 10 0 r, zeroPadded 10 0 c] (ascii 'R')).length ≤ 31 := by
        have hr : (numeral 10 r).length ≤ 10 := (numeral_length_le_iff (by decide) (by decide) _).mpr (by omega)
        have hc : (numeral 10 c).length ≤ 10 := (numeral_length_le_iff (by decide) (by decide) _).mpr (by omega)
        simp [controlSequence, List.intercalate, List.intersperse, zeroPadded_length]
        omega
      refine ⟨_, _, ?_, hone, rfl, hrun⟩
      rw [announced, reportText_eq m (by omega) (by omega), Option.map_some,
        List.take_of_length_le hshort]

theorem announcement_red : ∃ bytes ctx, announced (fun _ => 0#8) (.serialFg (.rgb 255#8 0#8 7#8)) = some bytes ∧
    dispatches demoConsole bytes = [(ascii 'm', [38, 2, 255, 0, 7])] ∧ ctx.state = .normal ∧
      bytes.foldlM ansiProcessChar demoConsole =
      .ok ((echo demoConsole (.serialFg (.rgb 255#8 0#8 7#8))).setCtx ctx) :=
  announcement_read_back (fun _ => 0#8) rfl (fun _ _ h => nomatch h)

end Frostix.Tty
