import Frostix.Drivers.Font
import Frostix.Drivers.Timer
import Frostix.Libc.PrintfNumber
import Frostix.Libc.Strings

/-!
The status line (`time.c`). The time is printed into a buffer of 32 bytes and drawn at the
right end of the last line of text on the screen. -/
namespace Frostix.Drivers

open Machine32 ByteMemory Libc Libc.Printf Loop Raster Tty

/-- `font_render_string`; the pen returns to column `x` at the end of a line. -/
def fontRenderString (dev : VbeDevice) (m : Mem) (fg bg : VbeColor) (font : Font) (x : UInt16) :
    Nat → Nat → UInt16 → UInt16 → Mem → Option (KernelStatus × Mem)
  | 0, _, _, _, _ => none
  | fuel + 1, p, curX, curY, fb =>
      if m p = 0#8 then some (.ok, fb)
      else if m p = ascii '\n' then
        fontRenderString dev m fg bg font x fuel (wrap (p + 1)) x (u16 (curY.toNat + font.height.toNat)) fb
      else if m p = ascii '\r' then fontRenderString dev m fg bg font x fuel (wrap (p + 1)) x curY fb
      else
        let (status, fb) := fontRenderChar dev fb (m p) curX curY fg bg font
        if status ≠ .ok then some (.error, fb)
        else
          let curX := u16 (curX.toNat + font.width.toNat)
          if dev.width.toNat < curX.toNat + font.width.toNat then
            fontRenderString dev m fg bg font x fuel (wrap (p + 1)) x (u16 (curY.toNat + font.height.toNat)) fb
          else fontRenderString dev m fg bg font x fuel (wrap (p + 1)) curX curY fb

def vbeDrawString (dev : VbeDevice) (font : Font) (m : Mem) (x y : UInt16) (str : Nat) (fg bg : VbeColor)
    (fb : Mem) :
    Option Mem :=
  (fontRenderString dev m fg bg font x stringFuel str x y fb).map (·.2)

def statusFormat : List Byte := "%04u-%02u-%02u %02u:%02u:%02u".toList.map ascii

def statusArgs (t : Time) : VaList := fun i =>
  [t.year.toBitVec, t.month.toBitVec.setWidth 32, t.day.toBitVec.setWidth 32, t.hour.toBitVec.setWidth 32,
    t.minute.toBitVec.setWidth 32, t.second.toBitVec.setWidth 32].getD i 0#32

/-- `draw_status` with its buffer at `buf`; the colours are those of the terminal. Memory and
framebuffer are what it leaves. -/
def drawStatus (dev : VbeDevice) (font : Font) (fg bg : VbeColor) (buf : Nat) (t : Time) (m fb : Mem) :
    Option (Mem × Mem) := do
  let (m, _) ← sprintf buf statusFormat (statusArgs t) m
  let len ← strlen m buf
  let y := u16 ((dev.height.toNat / font.height.toNat - 1) * font.height.toNat)
  let x := u16 (dev.width.toNat - len * font.width.toNat)
  let fb := (vbeFillRect dev fb x y (u16 (len * font.width.toNat)) (u16 font.height.toNat) bg).2
  let fb ← vbeDrawString dev font m x y buf fg bg fb
  some (m, fb)

def statusText (t : Time) : List Byte :=
  zeroPadded 10 4 t.year.toNat ++ ascii '-' :: (zeroPadded 10 2 t.month.toNat ++
    ascii '-' :: (zeroPadded 10 2 t.day.toNat ++ ascii ' ' :: (zeroPadded 10 2 t.hour.toNat ++
      ascii ':' :: (zeroPadded 10 2 t.minute.toNat ++ ascii ':' :: zeroPadded 10 2 t.second.toNat))))

theorem numeral_year (y : UInt32) : (numeral 10 y.toNat).length ≤ 10 :=
  (numeral_length_le_iff (by decide) (by decide) _).mpr (by have := y.toNat_lt; omega)

theorem numeral_field (b : UInt8) : (numeral 10 b.toNat).length ≤ 3 :=
  (numeral_length_le_iff (by decide) (by decide) _).mpr (by have := b.toNat_lt; omega)

theorem formatText_status (m : Mem) (t : Time) :
    formatText m statusFormat (statusArgs t) = some (statusText t) := by
  have hfield : ∀ b : UInt8, ntoaText (b.toBitVec.setWidth 32).toNat false 10 0 2 { zeropad := true } =
      zeroPadded 10 2 b.toNat := by
    intro b
    have hval : (b.toBitVec.setWidth 32).toNat = b.toNat :=
      BitVec.toNat_setWidth_of_le (by decide)
    rw [hval, ntoaText_zeroPadded (by decide) (by decide) ((numeral_field b).trans (by decide))]
  have hyear : ntoaText t.year.toBitVec.toNat false 10 0 4 { zeropad := true } = zeroPadded 10 4 t.year.toNat :=
    ntoaText_zeroPadded (by decide) (by decide) ((numeral_year t.year).trans (by decide))
  have hread : formatText m statusFormat (statusArgs t) = some (
      ntoaText t.year.toBitVec.toNat false 10 0 4 { zeropad := true } ++ ascii '-' ::
        (ntoaText (t.month.toBitVec.setWidth 32).toNat false 10 0 2 { zeropad := true } ++ ascii '-' ::
          (ntoaText (t.day.toBitVec.setWidth 32).toNat false 10 0 2 { zeropad := true } ++ ascii ' ' ::
            (ntoaText (t.hour.toBitVec.setWidth 32).toNat false 10 0 2 { zeropad := true } ++ ascii ':' ::
              (ntoaText (t.minute.toBitVec.setWidth 32).toNat false 10 0 2 { zeropad := true } ++ ascii ':' ::
                (ntoaText (t.second.toBitVec.setWidth 32).toNat false 10 0 2 { zeropad := true } ++ [])))))) := rfl
  rw [hread, hyear, hfield, hfield, hfield, hfield, hfield, List.append_nil, statusText]

theorem statusText_length (t : Time) : 19 ≤ (statusText t).length ∧ (statusText t).length + 1 ≤ 31 := by
  have hyear := numeral_year t.year
  have hmonth := numeral_field t.month
  have hday := numeral_field t.day
  have hhour := numeral_field t.hour
  have hminute := numeral_field t.minute
  have hsecond := numeral_field t.second
  simp only [statusText, List.length_append, List.length_cons, zeroPadded_length]
  omega

/-- A character that `font_render_string` draws. -/
def Drawable (c : Byte) : Prop := c ≠ 0#8 ∧ c ≠ ascii '\n' ∧ c ≠ ascii '\r'

instance (c : Byte) : Decidable (Drawable c) := inferInstanceAs (Decidable (_ ∧ _))

theorem digitChar_drawable : ∀ d : Fin 10, Drawable (digitChar false d) := by decide

theorem zeroPadded_drawable (width value : Nat) : ∀ c ∈ zeroPadded 10 width value, Drawable c := by
  intro c hc
  rcases List.mem_append.mp hc with hc | hc
  · rw [List.eq_of_mem_replicate hc]
    decide
  · obtain ⟨d, hd, rfl⟩ := List.mem_map.mp (List.mem_reverse.mp hc)
    exact digitChar_drawable ⟨d, numeral_lt (by decide) value d hd⟩

theorem statusText_drawable (t : Time) : ∀ c ∈ statusText t, Drawable c := by
  have hsep : Drawable (ascii '-') ∧ Drawable (ascii ' ') ∧ Drawable (ascii ':') := by decide
  have hzero := zeroPadded_drawable
  simp only [statusText, List.mem_append, List.mem_cons]
  rintro c (hc | rfl | hc | rfl | hc | rfl | hc | rfl | hc | rfl | hc)
  · exact hzero _ _ c hc
  · exact hsep.1
  · exact hzero _ _ c hc
  · exact hsep.1
  · exact hzero _ _ c hc
  · exact hsep.2.1
  · exact hzero _ _ c hc
  · exact hsep.2.2
  · exact hzero _ _ c hc
  · exact hsep.2.2
  · exact hzero _ _ c hc

variable {dev : VbeDevice} {font : Font}

def VbeDevice.glyphs (dev : VbeDevice) (font : Font) (fg bg : VbeColor) (text : List Byte) :
    List (Canvas (List (BitVec 8))) :=
  text.map fun c => dev.glyph font c fg bg

/-- A line of text on the screen is drawn character by character. -/
theorem fontRenderString_line (hp : Plain dev) (m : Mem) (fg bg : VbeColor) (x : UInt16) {y : UInt16}
    (hy : y.toNat + font.height.toNat ≤ dev.height.toNat) (text : List Byte) :
    ∀ (fuel p : Nat) (curX : UInt16) (fb : Mem), CString m p text → text.length < fuel →
      (∀ c ∈ text, Drawable c) → curX.toNat + text.length * font.width.toNat ≤ dev.width.toNat →
      ∃ fb', fontRenderString dev m fg bg font x fuel p curX y fb = some (.ok, fb') ∧
        dev.canvas fb' = stampRow (dev.canvas fb) curX.toNat y.toNat font.width.toNat font.height.toNat
          (dev.glyphs font fg bg text) := by
  induction text with
  | nil =>
      intro fuel p curX fb hp hfuel
      obtain ⟨fuel, rfl⟩ := Nat.exists_eq_succ_of_ne_zero (Nat.ne_of_gt hfuel)
      exact fun _ _ => ⟨fb, by rw [fontRenderString, if_pos hp.2], rfl⟩
  | cons c text ih =>
      intro fuel p curX fb hstr hfuel hdraw hfit
      obtain ⟨fuel, rfl⟩ := Nat.exists_eq_succ_of_ne_zero (Nat.ne_of_gt (Nat.zero_lt_of_lt hfuel))
      obtain ⟨hnul, hnl, hcr⟩ := hdraw c List.mem_cons_self
      have hwidth := dev.width.toNat_lt
      have hlt := hstr.lt
      rw [List.length_cons] at hfuel hlt
      rw [List.length_cons, Nat.succ_mul] at hfit
      obtain ⟨hok, hcanvas⟩ := fontRenderChar_canvas hp font c fg bg (x := curX) (y := y) (by omega) hy fb
      have hpen : (u16 (curX.toNat + font.width.toNat)).toNat = curX.toNat + font.width.toNat :=
        toNat_u16_nat (n := curX.toNat + font.width.toNat) (by omega)
      have hnext : wrap (p + 1) = p + 1 := wrap_of_lt (by omega)
      have hdraw' : ∀ d ∈ text, Drawable d := fun d hd => hdraw d (List.mem_cons_of_mem c hd)
      rw [fontRenderString, if_neg (hstr.1 ▸ hnul), if_neg (hstr.1 ▸ hnl), if_neg (hstr.1 ▸ hcr)]
      simp only [hstr.1, hok, ne_eq, not_true, if_false, hnext]
      by_cases hend : text = []
      · subst hend
        -- behind the last character the pen does not matter
        have hstop : ∀ curX curY fb, fontRenderString dev m fg bg font x fuel (p + 1) curX curY fb =
            some (.ok, fb) := by
          intro curX curY fb
          obtain ⟨fuel, rfl⟩ := Nat.exists_eq_succ_of_ne_zero (Nat.ne_of_gt (show 0 < fuel by omega))
          rw [fontRenderString, if_pos hstr.2.2.2]
        refine ⟨_, by split_ifs <;> exact hstop _ _ _, ?_⟩
        rw [hcanvas]
        rfl
      · have hmore : 1 ≤ text.length := List.length_pos_of_ne_nil hend
        have hwide : font.width.toNat ≤ text.length * font.width.toNat := Nat.le_mul_of_pos_left _ hmore
        obtain ⟨fb', hrun, hcanvas'⟩ := ih fuel (p + 1) (u16 (curX.toNat + font.width.toNat))
          (fontRenderChar dev fb c curX y fg bg font).2 hstr.2.2 (by omega) hdraw' (by rw [hpen]; omega)
        refine ⟨fb', by rw [if_neg (by rw [hpen]; omega)]; exact hrun, ?_⟩
        rw [hcanvas', hpen, hcanvas]
        rfl

variable (font) in
theorem vbeDrawString_line (hp : Plain dev) {m : Mem} {p : Nat} {text : List Byte} (hstr : CString m p text)
    (hdraw : ∀ c ∈ text, Drawable c) (fg bg : VbeColor) {x y : UInt16}
    (hx : x.toNat + text.length * font.width.toNat ≤ dev.width.toNat)
    (hy : y.toNat + font.height.toNat ≤ dev.height.toNat) (fb : Mem) :
    ∃ fb', vbeDrawString dev font m x y p fg bg fb = some fb' ∧
      dev.canvas fb' = stampRow (dev.canvas fb) x.toNat y.toNat font.width.toNat font.height.toNat
        (dev.glyphs font fg bg text) := by
  have hlt : text.length < stringFuel :=
    lt_of_le_of_lt (Nat.le_add_left text.length p) (show p + text.length < stringFuel from hstr.lt)
  obtain ⟨fb', hrun, hcanvas⟩ := fontRenderString_line hp m fg bg x hy text stringFuel p x fb hstr hlt hdraw hx
  exact ⟨fb', by rw [vbeDrawString, hrun]; rfl, hcanvas⟩

def statusTop (dev : VbeDevice) (font : Font) : Nat :=
  (dev.height.toNat / font.height.toNat - 1) * font.height.toNat

def stampStatus (dev : VbeDevice) (font : Font) (fg bg : VbeColor) (t : Time) (c : Canvas (List (BitVec 8))) :
    Canvas (List (BitVec 8)) :=
  let width := (statusText t).length * font.width.toNat
  stamp c (dev.width.toNat - width) (statusTop dev font) width font.height.toNat
    (rowOf font.width.toNat (dev.glyphs font fg bg (statusText t)) fun _ _ => [])

theorem drawStatus_eq (hp : Plain dev) {buf : Nat} (hbuf : buf ≠ 0) (hend : buf + 32 ≤ 2 ^ 32) (fg bg : VbeColor)
    {t : Time} (hwide : (statusText t).length * font.width.toNat ≤ dev.width.toNat)
    (hhigh : font.height.toNat ≤ dev.height.toNat) (m fb : Mem) :
    ∃ fb', drawStatus dev font fg bg buf t m fb = some (Emit.place m buf (statusText t ++ [0#8]), fb') ∧
      dev.canvas fb' = stampStatus dev font fg bg t (dev.canvas fb) := by
  obtain ⟨hlong, hshort⟩ := statusText_length t
  have hw := dev.width.toNat_lt
  have hh := dev.height.toNat_lt
  have hfw := font.width_range.1
  have hfh := font.height_range
  have hprint := sprintf_eq (m := m) (formatText_status m t) hbuf (by omega)
  have hstr : CString (Emit.place m buf (statusText t ++ [0#8])) buf (statusText t) :=
    CString.place m (fun c hc => (statusText_drawable t c hc).1) (by omega)
  have hlines : 1 ≤ dev.height.toNat / font.height.toNat := (Nat.one_le_div_iff hfh.1).mpr hhigh
  have hbottom : statusTop dev font + font.height.toNat ≤ dev.height.toNat := by
    have hmul := Nat.div_mul_le_self dev.height.toNat font.height.toNat
    have hsplit : dev.height.toNat / font.height.toNat * font.height.toNat =
        statusTop dev font + font.height.toNat := by
      rw [statusTop, ← Nat.succ_mul, Nat.succ_eq_add_one, Nat.sub_add_cancel hlines]
    omega
  have hy : (u16 ((dev.height.toNat / font.height.toNat - 1) * font.height.toNat)).toNat =
      statusTop dev font := by
    have hcast : (((dev.height.toNat : Int) / font.height.toNat - 1) * font.height.toNat) =
        (statusTop dev font : Nat) := by
      rw [statusTop, Nat.cast_mul, Nat.cast_sub hlines]
      push_cast
      rfl
    rw [hcast]
    exact toNat_u16_nat (by omega)
  have hx : (u16 (dev.width.toNat - (statusText t).length * font.width.toNat)).toNat =
      dev.width.toNat - (statusText t).length * font.width.toNat := by
    have hcast : ((dev.width.toNat : Int) - (statusText t).length * font.width.toNat) =
        ((dev.width.toNat - (statusText t).length * font.width.toNat : Nat) : Int) := by
      rw [Nat.cast_sub hwide]
      push_cast
      rfl
    rw [hcast]
    exact toNat_u16_nat (by omega)
  have hlen : (u16 ((statusText t).length * font.width.toNat)).toNat =
      (statusText t).length * font.width.toNat := by
    rw [← Nat.cast_mul]
    exact toNat_u16_nat (by omega)
  have hheight : (u16 font.height.toNat).toNat = font.height.toNat := toNat_u16_nat (by omega)
  have hpos : 0 < (statusText t).length * font.width.toNat := Nat.mul_pos (by omega) hfw
  rw [drawStatus, hprint]
  simp only [Option.bind_eq_bind, Option.bind_some, strlen_eq hstr hbuf]
  generalize u16 (dev.width.toNat - (statusText t).length * font.width.toNat) = x at hx ⊢
  generalize u16 ((dev.height.toNat / font.height.toNat - 1) * font.height.toNat) = y at hy ⊢
  generalize u16 ((statusText t).length * font.width.toNat) = width at hlen ⊢
  generalize u16 font.height.toNat = height at hheight ⊢
  have hin : InScreen dev x y width height :=
    ⟨by omega, by omega, fun h => by rw [h, UInt16.toNat_zero] at hlen; omega,
      fun h => by rw [h, UInt16.toNat_zero] at hheight; omega⟩
  obtain ⟨fb', hrun, hcanvas⟩ := vbeDrawString_line font hp hstr (statusText_drawable t) fg bg (x := x) (y := y)
    (by omega) (by omega) (vbeFillRect dev fb x y width height bg).2
  refine ⟨fb', by rw [hrun]; rfl, ?_⟩
  have hcount : (dev.glyphs font fg bg (statusText t)).length = (statusText t).length := List.length_map ..
  rw [hcanvas, canvas_fillRect hp hin, hx, hy, hlen, hheight, fill, stampRow_eq hfw (fun _ _ => []),
    hcount, stamp_stamp]
  rfl

end Frostix.Drivers
