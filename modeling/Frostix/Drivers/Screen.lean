import Frostix.Drivers.VgaText

/-!
The text device as a screen of 80 by 25 cells, each with a byte and an attribute. The
device refines the screen as long as bytes from 128 on are only written in the colour
0xFF: the sign of such a byte fills the attribute half of its cell. -/
namespace Frostix.Drivers

open Machine32 Libc Transition

structure Screen where
  cells : Fin 25 → Fin 80 → Byte × Byte
  x : Fin 80
  y : Fin 25
  color : Byte

def Screen.blank (color : Byte) : Screen := ⟨fun _ _ => (ascii ' ', color), 0, 0, color⟩

def Screen.put (s : Screen) (y : Fin 25) (x : Fin 80) (c attr : Byte) : Screen :=
  { s with cells := Function.update s.cells y (Function.update (s.cells y) x (c, attr)) }

def Screen.scroll (s : Screen) : Screen :=
  { s with cells := fun y =>
      if h : y.val + 1 < 25 then s.cells ⟨y.val + 1, h⟩ else fun _ => (ascii ' ', s.color) }

def Screen.newline (s : Screen) : Screen :=
  if h : s.y.val + 1 < 25 then { s with x := 0, y := ⟨s.y.val + 1, h⟩ }
  else { s.scroll with x := 0, y := 24 }

def Screen.glyph (s : Screen) (c : Byte) : Screen :=
  let s := s.put s.y s.x c s.color
  if h : s.x.val + 1 < 80 then { s with x := ⟨s.x.val + 1, h⟩ } else s.newline

/-- The cell before the cursor becomes blank, and the cursor moves there. -/
def Screen.back (s : Screen) : Screen :=
  if h : 0 < s.x.val then
    let s := { s with x := ⟨s.x.val - 1, by omega⟩ }
    s.put s.y s.x (ascii ' ') s.color
  else s

def Screen.putchar (s : Screen) (c : Byte) : Screen :=
  if c = ascii '\n' then s.newline
  else if c = ascii '\r' then { s with x := 0 }
  else if c = ascii '\t' then (fun s => s.glyph (ascii ' '))^[4 - s.x.val % 4] s
  else if c = 8#8 then s.back
  else s.glyph c

def clampFin (n : Nat) (h : 0 < n) (v : Int) : Fin n := ⟨min v.toNat (n - 1), by omega⟩

/-- What a call does to the screen; before `vga_text_init` there is none. -/
def VgaOp.show (screen : Option Screen) : VgaOp → Option Screen
  | .init => some (.blank (vgaTextMakeColor 7#8 0#8))
  | .putchar c => screen.map fun s => s.putchar c
  | .write data => screen.map fun s => data.foldl Screen.putchar s
  | .newline => screen.map Screen.newline
  | .setColor color => screen.map fun s => { s with color }
  | .setCursor x y => screen.map fun s =>
      if h : x < 80 ∧ y < 25 then { s with x := ⟨x, h.1⟩, y := ⟨y, h.2⟩ } else s
  | .moveCursor dx dy => screen.map fun s =>
      { s with x := clampFin 80 (by decide) (s.x + dx), y := clampFin 25 (by decide) (s.y + dy) }
  | .putcharAt c color x y => screen.map fun s =>
      if h : x < 80 ∧ y < 25 then s.put ⟨y, h.2⟩ ⟨x, h.1⟩ c color else s
  | .scrollUp lines => screen.map Screen.scroll^[lines]
  | .clear => screen.map fun s => .blank s.color

def cellIndex (y : Fin 25) (x : Fin 80) : Fin 2000 := ⟨vgaIndex x y, by unfold vgaIndex; omega⟩

structure Displays (dev : VgaTextDevice) (s : Screen) : Prop where
  initialized : dev.initialized = true
  x : dev.cursorX = s.x
  y : dev.cursorY = s.y
  color : dev.color = s.color
  cells : ∀ y x, dev.buffer (cellIndex y x) = (s.cells y x).2 ++ (s.cells y x).1

def Refines (dev : VgaTextDevice) : Option Screen → Prop
  | none => dev.initialized = false ∧ dev.cursorX = 0 ∧ dev.cursorY = 0
  | some s => Displays dev s

def Packs (c color : Byte) : Prop := c.msb = false ∨ color = 0xFF#8

/-- What the call writes to an initialized device fits into the cells. -/
def VgaOp.Plain (dev : VgaTextDevice) : VgaOp → Prop
  | .putchar c => dev.initialized = true → Packs c dev.color
  | .write data => dev.initialized = true → ∀ c ∈ data, Packs c dev.color
  | .putcharAt c color x y => dev.initialized = true → x < 80 → y < 25 → Packs c color
  | _ => True

theorem vgaMakeEntry_eq_iff {c color : Byte} : vgaMakeEntry c color = color ++ c ↔ Packs c color := by
  constructor
  · intro heq
    cases hmsb : c.msb with
    | false => exact Or.inl hmsb
    | true =>
        right
        have hhigh : (vgaMakeEntry c color).extractLsb' 8 8 = 0xFF#8 := by
          rw [vgaMakeEntry, BitVec.signExtend_eq_not_setWidth_not_of_msb_true hmsb]
          change _ = BitVec.allOnes 8
          ext i hi
          simp only [BitVec.getElem_extractLsb', BitVec.getLsbD_or, BitVec.getElem_allOnes]
          simp
          omega
        rw [heq, BitVec.extractLsb'_append_eq_left] at hhigh
        exact hhigh
  · rintro (hmsb | rfl)
    · rw [vgaMakeEntry, BitVec.signExtend_eq_setWidth_of_msb_false hmsb, BitVec.append_def, BitVec.or_comm,
        BitVec.shiftLeftZeroExtend_eq, BitVec.setWidth'_eq]
    · revert c
      decide

theorem vgaMakeEntry_eq {c color : Byte} (h : Packs c color) : vgaMakeEntry c color = color ++ c :=
  vgaMakeEntry_eq_iff.mpr h

theorem cellIndex_inj {y y' : Fin 25} {x x' : Fin 80} (h : cellIndex y x = cellIndex y' x') :
    y = y' ∧ x = x' := by
  have hval : vgaIndex x y = vgaIndex x' y' := congrArg Fin.val h
  unfold vgaIndex at hval
  constructor <;> apply Fin.ext <;> omega

theorem writeCell_of_lt (buf : Cells) {i : Nat} (h : i < 2000) (entry : BitVec 16) :
    writeCell buf i entry = some (Function.update buf ⟨i, h⟩ entry) := dif_pos h

/-- Writing cell `i` behind a part of the loop that is done. -/
theorem update_lt_iff {buf : Cells} {i : Nat} (h : i < 2000) {entry : BitVec 16} (j : Fin 2000) :
    Function.update buf ⟨i, h⟩ entry j = if j.val = i then entry else buf j := by
  by_cases hj : j.val = i
  · rw [if_pos hj, show j = ⟨i, h⟩ from Fin.ext hj, Function.update_self]
  · rw [if_neg hj, Function.update_of_ne fun heq => hj (congrArg Fin.val heq)]

/-- The cells before `n` hold what is one line further down. -/
def Moved (old : Cells) (n : Nat) (buf : Cells) : Prop :=
  ∀ i : Fin 2000, buf i = if i.val < n then old (i + 80) else old i

theorem val_add_line {i : Fin 2000} (h : i.val < 1920) : (i + 80).val = i.val + 80 := by
  rw [Fin.val_add]
  exact Nat.mod_eq_of_lt (by change i.val + 80 < 2000; omega)

theorem copyLines_spec (old : Cells) : ∃ buf, copyLines old = some buf ∧ Moved old 1920 buf := by
  refine Loop.foldlM_range_some (fun y buf => Moved old (80 * y) buf) (fun i => (if_neg (by omega)).symm) ?_
  intro y hy buf hbuf
  refine Loop.foldlM_range_some (fun x buf => Moved old (80 * y + x) buf) hbuf ?_
  intro x hx buf hbuf
  have hsrc : vgaIndex x (y + 1) < 2000 := by
    unfold vgaIndex
    omega
  have hdst : vgaIndex x y < 2000 := by
    unfold vgaIndex
    omega
  refine ⟨_, by rw [readCell, dif_pos hsrc]; exact writeCell_of_lt buf hdst _, ?_⟩
  intro i
  rw [update_lt_iff hdst]
  unfold vgaIndex at hsrc hdst ⊢
  by_cases hi : i.val = y * 80 + x
  · -- the line below is read before it is overwritten
    rw [if_pos hi, if_pos (by omega), hbuf, if_neg (by change ¬ (y + 1) * 80 + x < 80 * y + x; omega)]
    congr 1
    apply Fin.ext
    rw [val_add_line (by omega)]
    change (y + 1) * 80 + x = _
    omega
  · rw [if_neg hi, hbuf]
    by_cases hlt : i.val < 80 * y + x
    · rw [if_pos hlt, if_pos (by omega)]
    · rw [if_neg hlt, if_neg (by omega)]

theorem blankLine_spec (old : Cells) (entry : BitVec 16) {n : Nat} (hn : n ≤ 80) :
    ∃ buf : Cells, (List.range n).foldlM (fun buf x => writeCell buf (vgaIndex x 24) entry) old = some buf ∧
      (∀ i : Fin 2000, i.val < 1920 → buf i = old i) ∧
      ∀ i : Fin 2000, 1920 ≤ i.val → i.val < 1920 + n → buf i = entry := by
  refine Loop.foldlM_range_some (fun n (buf : Cells) => (∀ i : Fin 2000, i.val < 1920 → buf i = old i) ∧
    ∀ i : Fin 2000, 1920 ≤ i.val → i.val < 1920 + n → buf i = entry) ⟨fun _ _ => rfl, ?_⟩ ?_
  · intro i hlo hhi
    omega
  · rintro x hx buf ⟨hkeep, hblank⟩
    have hdst : vgaIndex x 24 < 2000 := by
      unfold vgaIndex
      omega
    refine ⟨_, writeCell_of_lt buf hdst _, ?_, ?_⟩
    · intro i hi
      have hne : i.val ≠ vgaIndex x 24 := by
        unfold vgaIndex
        omega
      rw [update_lt_iff hdst, if_neg hne]
      exact hkeep i hi
    · intro i hlo hhi
      rw [update_lt_iff hdst]
      split
      · rfl
      · rename_i hne
        unfold vgaIndex at hne
        exact hblank i hlo (by omega)

theorem scrollInternal_spec (color : Byte) (old : Cells) :
    ∃ buf : Cells, scrollInternal color old = some buf ∧
      (∀ i : Fin 2000, i.val < 1920 → buf i = old (i + 80)) ∧
      ∀ i : Fin 2000, 1920 ≤ i.val → buf i = vgaMakeEntry (ascii ' ') color := by
  obtain ⟨moved, hmoved, hspec⟩ := copyLines_spec old
  obtain ⟨buf, hrun, hkeep, hblank⟩ := blankLine_spec moved (vgaMakeEntry (ascii ' ') color) le_rfl
  refine ⟨buf, ?_, ?_, fun i hi => hblank i hi (by omega)⟩
  · unfold scrollInternal
    rw [hmoved, Option.bind_eq_bind, Option.bind_some, hrun]
  · exact fun i hi => (hkeep i hi).trans ((hspec i).trans (if_pos hi))

theorem clearLoop_spec (old : Cells) (entry : BitVec 16) {n : Nat} (hn : n ≤ 2000) :
    ∃ buf : Cells, (List.range n).foldlM (fun buf i => writeCell buf i entry) old = some buf ∧
      ∀ i : Fin 2000, i.val < n → buf i = entry := by
  refine Loop.foldlM_range_some (fun n (buf : Cells) => ∀ i : Fin 2000, i.val < n → buf i = entry)
    (fun i hi => absurd hi (Nat.not_lt_zero _)) ?_
  intro k hk buf hbuf
  refine ⟨_, writeCell_of_lt buf (lt_of_lt_of_le hk hn) entry, fun i hi => ?_⟩
  rw [update_lt_iff (lt_of_lt_of_le hk hn)]
  split
  · rfl
  · exact hbuf i (by omega)

section Calls

variable {dev : VgaTextDevice} {s : Screen}

theorem Displays.setColor (h : Displays dev s) (color : Byte) :
    Displays { dev with color } { s with color } := ⟨h.initialized, h.x, h.y, rfl, h.cells⟩

theorem Displays.moveTo (h : Displays dev s) {x y : Nat} {x' : Fin 80} {y' : Fin 25} (hx : x = x')
    (hy : y = y') :
    Displays { dev with cursorX := x, cursorY := y } { s with x := x', y := y' } :=
  ⟨h.initialized, hx, hy, h.color, h.cells⟩

theorem Displays.putcharAt (h : Displays dev s) {c color : Byte} (hpack : Packs c color) (y : Fin 25)
    (x : Fin 80) :
    ∃ dev', vgaTextPutcharAt dev c color x y = some (.ok, dev') ∧ Displays dev' (s.put y x c color) := by
  have hindex : vgaIndex x y < 2000 := (cellIndex y x).isLt
  refine ⟨{ dev with buffer := Function.update dev.buffer (cellIndex y x) (vgaMakeEntry c color) }, ?_,
    ⟨h.initialized, h.x, h.y, h.color, ?_⟩⟩
  · rw [vgaTextPutcharAt, if_neg (by simp [h.initialized]), if_neg (by omega), writeCell_of_lt _ hindex]
    rfl
  · intro y' x'
    change Function.update dev.buffer (cellIndex y x) _ (cellIndex y' x') =
      (Function.update s.cells y _ y' x').2 ++ (Function.update s.cells y _ y' x').1
    by_cases hy : y' = y
    · subst hy
      rw [Function.update_self]
      by_cases hx : x' = x
      · subst hx
        rw [Function.update_self, Function.update_self]
        exact vgaMakeEntry_eq hpack
      · rw [Function.update_of_ne fun heq => hx (cellIndex_inj heq).2, Function.update_of_ne hx]
        exact h.cells y' x'
    · rw [Function.update_of_ne fun heq => hy (cellIndex_inj heq).1, Function.update_of_ne hy]
      exact h.cells y' x'

theorem packs_space (color : Byte) : Packs (ascii ' ') color := Or.inl rfl

theorem Displays.scroll (h : Displays dev s) :
    ∃ buffer, scrollInternal dev.color dev.buffer = some buffer ∧ Displays { dev with buffer } s.scroll := by
  obtain ⟨buffer, hrun, hmoved, hblank⟩ := scrollInternal_spec dev.color dev.buffer
  refine ⟨buffer, hrun, h.initialized, h.x, h.y, h.color, ?_⟩
  intro y x
  change buffer (cellIndex y x) = _
  have hval : (cellIndex y x).val = y.val * 80 + x.val := rfl
  unfold Screen.scroll
  dsimp only
  by_cases hy : y.val + 1 < 25
  · have hlt : (cellIndex y x).val < 1920 := by omega
    have hbelow : cellIndex y x + 80 = cellIndex ⟨y.val + 1, hy⟩ x := by
      apply Fin.ext
      rw [val_add_line hlt, hval]
      change _ = (y.val + 1) * 80 + x.val
      omega
    rw [dif_pos hy, hmoved _ hlt, hbelow]
    exact h.cells _ x
  · rw [dif_neg hy, hblank _ (by omega), vgaMakeEntry_eq (packs_space _), h.color]

theorem vgaTextNewline_column (hinit : dev.initialized = true) (x : Nat) :
    vgaTextNewline { dev with cursorX := x } = vgaTextNewline dev := by
  simp only [vgaTextNewline, hinit, Bool.not_true, Bool.false_eq_true, if_false]

theorem Displays.newline (h : Displays dev s) :
    ∃ dev', vgaTextNewline dev = some (.ok, dev') ∧ Displays dev' s.newline := by
  have hy := h.y
  have hmod : (dev.cursorY + 1) % 2 ^ 16 = s.y.val + 1 := by omega
  unfold vgaTextNewline Screen.newline
  rw [if_neg (by simp [h.initialized])]
  simp only [hmod]
  by_cases hlast : s.y.val + 1 < 25
  · rw [if_neg (by omega), dif_pos hlast]
    exact ⟨_, rfl, h.initialized, rfl, rfl, h.color, h.cells⟩
  · obtain ⟨buffer, hrun, hdisplays⟩ := h.scroll
    rw [if_pos (by omega), dif_neg hlast, hrun]
    exact ⟨_, rfl, h.initialized, rfl, rfl, h.color, hdisplays.cells⟩

theorem Displays.glyph (h : Displays dev s) {c : Byte} (hpack : Packs c s.color) :
    ∃ dev', putGlyph dev c = some (.ok, dev') ∧ Displays dev' (s.glyph c) := by
  obtain ⟨dev₁, hput, h₁⟩ := h.putcharAt hpack s.y s.x
  have hx := h₁.x
  change dev₁.cursorX = s.x at hx
  have hmod : (dev₁.cursorX + 1) % 2 ^ 16 = s.x.val + 1 := by omega
  unfold putGlyph Screen.glyph
  rw [h.color, h.x, h.y, hput]
  simp only [Option.bind_eq_bind, Option.bind_some, hmod]
  have hsame : (s.put s.y s.x c s.color).x = s.x := rfl
  rw [hsame]
  by_cases hlast : s.x.val + 1 < 80
  · rw [if_neg (by omega), dif_pos hlast]
    exact ⟨_, rfl, h₁.initialized, rfl, h₁.y, h₁.color, h₁.cells⟩
  · rw [if_pos (by omega), dif_neg hlast]
    obtain ⟨dev₂, hline, h₂⟩ := h₁.newline
    exact ⟨dev₂, (vgaTextNewline_column h₁.initialized _).trans hline, h₂⟩

theorem Displays.spaces (n : Nat) : ∀ {dev : VgaTextDevice} {s : Screen}, Displays dev s →
    ∃ dev', putSpaces n dev = some (.ok, dev') ∧ Displays dev' ((fun s => s.glyph (ascii ' '))^[n] s) := by
  induction n with
  | zero => exact fun h => ⟨_, rfl, h⟩
  | succ n ih =>
      intro dev s h
      obtain ⟨dev₁, hrun, h₁⟩ := h.glyph (packs_space _)
      obtain ⟨dev₂, hrest, h₂⟩ := ih h₁
      refine ⟨dev₂, ?_, h₂⟩
      rw [putSpaces, hrun]
      exact hrest

theorem Displays.back (h : Displays dev s) :
    ∃ dev', (if 0 < dev.cursorX then do
        let dev := { dev with cursorX := dev.cursorX - 1 }
        let (_, dev) ← vgaTextPutcharAt dev (ascii ' ') dev.color dev.cursorX dev.cursorY
        some (.ok, dev)
      else some (.ok, dev)) = some (KernelStatus.ok, dev') ∧ Displays dev' s.back := by
  have hx := h.x
  unfold Screen.back
  by_cases hpos : 0 < s.x.val
  · rw [if_pos (by omega), dif_pos hpos]
    have h₁ : Displays { dev with cursorX := dev.cursorX - 1 } { s with x := ⟨s.x.val - 1, by omega⟩ } :=
      ⟨h.initialized, by rw [hx], h.y, h.color, h.cells⟩
    obtain ⟨dev₂, hput, h₂⟩ := h₁.putcharAt (packs_space s.color) s.y ⟨s.x.val - 1, by omega⟩
    refine ⟨dev₂, ?_, h₂⟩
    dsimp only
    rw [h.color, h.y, hx]
    rw [h.color, h.y, hx] at hput
    rw [hput]
    rfl
  · rw [if_neg (by omega), dif_neg hpos]
    exact ⟨dev, rfl, h⟩

theorem Displays.putchar (h : Displays dev s) {c : Byte} (hpack : Packs c s.color) :
    ∃ dev', vgaTextPutchar dev c = some (.ok, dev') ∧ Displays dev' (s.putchar c) := by
  unfold vgaTextPutchar Screen.putchar
  rw [if_neg (by simp [h.initialized])]
  by_cases hnewline : c = ascii '\n'
  · rw [if_pos hnewline, if_pos hnewline]
    exact h.newline
  rw [if_neg hnewline, if_neg hnewline]
  by_cases hreturn : c = ascii '\r'
  · rw [if_pos hreturn, if_pos hreturn]
    exact ⟨_, rfl, h.initialized, rfl, h.y, h.color, h.cells⟩
  rw [if_neg hreturn, if_neg hreturn]
  by_cases htab : c = ascii '\t'
  · rw [if_pos htab, if_pos htab, h.x]
    exact Displays.spaces _ h
  rw [if_neg htab, if_neg htab]
  by_cases hback : c = 8#8
  · rw [if_pos hback, if_pos hback]
    exact h.back
  · rw [if_neg hback, if_neg hback]
    exact h.glyph hpack

theorem glyph_color (s : Screen) (c : Byte) : (s.glyph c).color = s.color := by
  unfold Screen.glyph Screen.newline
  dsimp only
  split_ifs <;> rfl

theorem putchar_color (s : Screen) (c : Byte) : (s.putchar c).color = s.color := by
  have hspaces : ∀ n, ((fun s : Screen => s.glyph (ascii ' '))^[n] s).color = s.color := by
    intro n
    induction n with
    | zero => rfl
    | succ n ih => rw [Function.iterate_succ_apply', glyph_color, ih]
  unfold Screen.putchar
  split_ifs
  · unfold Screen.newline
    split_ifs <;> rfl
  · rfl
  · exact hspaces _
  · unfold Screen.back
    split_ifs <;> rfl
  · exact glyph_color s c

theorem Displays.writeAll (data : List Byte) : ∀ {dev : VgaTextDevice} {s : Screen}, Displays dev s →
    (∀ c ∈ data, Packs c s.color) →
    ∃ dev', writeAll data dev = some (.ok, dev') ∧ Displays dev' (data.foldl Screen.putchar s) := by
  induction data with
  | nil => exact fun h _ => ⟨_, rfl, h⟩
  | cons c data ih =>
      intro dev s h hpack
      obtain ⟨dev₁, hrun, h₁⟩ := h.putchar (hpack c List.mem_cons_self)
      obtain ⟨dev₂, hrest, h₂⟩ := ih h₁ (by
        intro d hd
        rw [putchar_color]
        exact hpack d (List.mem_cons_of_mem _ hd))
      refine ⟨dev₂, ?_, h₂⟩
      rw [Drivers.writeAll, hrun]
      exact hrest

theorem Displays.clear (h : Displays dev s) :
    ∃ dev', vgaTextClear dev = some (.ok, dev') ∧ Displays dev' (.blank s.color) := by
  obtain ⟨buffer, hrun, hblank⟩ := clearLoop_spec dev.buffer (vgaMakeEntry (ascii ' ') dev.color) le_rfl
  refine ⟨{ dev with buffer, cursorX := 0, cursorY := 0 }, ?_, h.initialized, rfl, rfl, h.color, ?_⟩
  · rw [vgaTextClear, if_neg (by simp [h.initialized]), hrun]
    rfl
  · intro y x
    rw [← h.color]
    exact (hblank _ (cellIndex y x).isLt).trans (vgaMakeEntry_eq (packs_space _))

theorem init_displays (dev : VgaTextDevice) :
    ∃ dev', vgaTextInit dev = some (.ok, dev') ∧ Displays dev' (.blank (vgaTextMakeColor 7#8 0#8)) := by
  obtain ⟨buffer, hrun, hblank⟩ := clearLoop_spec dev.buffer
    (vgaMakeEntry (ascii ' ') (vgaTextMakeColor 7#8 0#8)) le_rfl
  refine ⟨⟨0, 0, vgaTextMakeColor 7#8 0#8, buffer, true⟩, ?_, rfl, rfl, rfl, rfl, fun y x =>
    (hblank _ (cellIndex y x).isLt).trans (vgaMakeEntry_eq (packs_space _))⟩
  rw [vgaTextInit, vgaTextClear, if_neg (by simp), hrun]
  rfl

theorem Displays.scrollUp (h : Displays dev s) (lines : Nat) :
    ∃ dev', vgaTextScrollUp dev lines = some (.ok, dev') ∧ Displays dev' (Screen.scroll^[lines] s) := by
  have hcolor : ∀ n, (Screen.scroll^[n] s).color = s.color := by
    intro n
    induction n with
    | zero => rfl
    | succ n ih =>
        rw [Function.iterate_succ_apply']
        exact ih
  obtain ⟨buffer, hrun, hdisplays⟩ := Loop.foldlM_range_some (s := dev.buffer) (n := lines)
    (f := fun buf _ => scrollInternal dev.color buf)
    (fun n buffer => Displays { dev with buffer } (Screen.scroll^[n] s)) h (by
      intro n _ buffer hbuffer
      obtain ⟨buffer', hscroll, hnext⟩ := hbuffer.scroll
      refine ⟨buffer', hscroll, ?_⟩
      rw [Function.iterate_succ_apply']
      exact hnext)
  refine ⟨{ dev with buffer }, ?_, hdisplays⟩
  rw [vgaTextScrollUp, if_neg (by simp [h.initialized]), hrun]
  rfl

/-- Before `vga_text_init` every other call is refused. -/
theorem exec_off (h : dev.initialized = false) {op : VgaOp} (hop : op ≠ .init) :
    ∃ st, op.exec dev = some (st, dev) := by
  cases op with
  | init => exact absurd rfl hop
  | write data => exact ⟨.invalidParam, by simp [VgaOp.exec, vgaTextWrite, h]⟩
  | _ =>
      exact ⟨.error, by simp [VgaOp.exec, vgaTextPutchar, vgaTextNewline, vgaTextSetColor, vgaTextSetCursor,
        vgaTextMoveCursor, vgaTextPutcharAt, vgaTextScrollUp, vgaTextClear, h]⟩

theorem clampTo_eq {n : Nat} (hn : 0 < n) (v : Int) : (clampTo n v).toNat = (clampFin n hn v).val := by
  unfold clampTo clampFin
  dsimp only
  split_ifs <;> omega

/-- A call keeps the refinement when what it writes fits into the cells. -/
theorem Refines.exec {screen : Option Screen} (h : Refines dev screen) (op : VgaOp) (hplain : op.Plain dev) :
    ∃ st dev', op.exec dev = some (st, dev') ∧ Refines dev' (op.show screen) := by
  by_cases hinit : op = .init
  · subst hinit
    obtain ⟨dev', hrun, hdisplays⟩ := init_displays dev
    exact ⟨_, dev', hrun, hdisplays⟩
  cases screen with
  | none =>
      obtain ⟨st, hrun⟩ := exec_off h.1 hinit
      refine ⟨st, dev, hrun, ?_⟩
      cases op with
      | init => exact absurd rfl hinit
      | _ => exact h
  | some s =>
      have hs : Displays dev s := h
      cases op with
      | init => exact absurd rfl hinit
      | putchar c =>
          obtain ⟨dev', hrun, hdisplays⟩ := hs.putchar (c := c) (hs.color ▸ hplain hs.initialized)
          exact ⟨_, dev', hrun, hdisplays⟩
      | write data =>
          obtain ⟨dev', hrun, hdisplays⟩ := Displays.writeAll data hs (hs.color ▸ hplain hs.initialized)
          refine ⟨.ok, dev', ?_, hdisplays⟩
          rw [VgaOp.exec, vgaTextWrite, if_neg (by simp [hs.initialized])]
          exact hrun
      | newline =>
          obtain ⟨dev', hrun, hdisplays⟩ := hs.newline
          exact ⟨_, dev', hrun, hdisplays⟩
      | setColor color =>
          refine ⟨.ok, _, ?_, hs.setColor color⟩
          rw [VgaOp.exec, vgaTextSetColor, if_neg (by simp [hs.initialized])]
      | setCursor x y =>
          rw [VgaOp.exec, vgaTextSetCursor, if_neg (by simp [hs.initialized]), VgaOp.show, Option.map_some]
          by_cases hin : x < 80 ∧ y < 25
          · rw [if_neg (by omega), dif_pos hin]
            exact ⟨_, _, rfl, hs.moveTo rfl rfl⟩
          · rw [if_pos (by omega), dif_neg hin]
            exact ⟨_, _, rfl, hs⟩
      | moveCursor dx dy =>
          have hx := clampTo_eq (n := 80) (by decide) (dev.cursorX + dx)
          have hy := clampTo_eq (n := 25) (by decide) (dev.cursorY + dy)
          rw [hs.x] at hx
          rw [hs.y] at hy
          refine ⟨.ok, _, ?_, hs.moveTo hx hy⟩
          rw [VgaOp.exec, vgaTextMoveCursor, if_neg (by simp [hs.initialized]), vgaTextSetCursor,
            if_neg (by simp [hs.initialized]), hs.x, hs.y]
          exact congrArg some (if_neg (not_or.mpr ⟨not_le.mpr (hx ▸ Fin.isLt _), not_le.mpr (hy ▸ Fin.isLt _)⟩))
      | putcharAt c color x y =>
          rw [VgaOp.exec, VgaOp.show, Option.map_some]
          by_cases hin : x < 80 ∧ y < 25
          · rw [dif_pos hin]
            obtain ⟨dev', hrun, hdisplays⟩ :=
              hs.putcharAt (hplain hs.initialized hin.1 hin.2) ⟨y, hin.2⟩ ⟨x, hin.1⟩
            exact ⟨_, dev', hrun, hdisplays⟩
          · rw [dif_neg hin, vgaTextPutcharAt, if_neg (by simp [hs.initialized]), if_pos (by omega)]
            exact ⟨_, dev, rfl, hs⟩
      | scrollUp lines =>
          obtain ⟨dev', hrun, hdisplays⟩ := hs.scrollUp lines
          exact ⟨_, dev', hrun, hdisplays⟩
      | clear =>
          obtain ⟨dev', hrun, hdisplays⟩ := hs.clear
          exact ⟨_, dev', hrun, hdisplays⟩

end Calls

abbrev VgaState := VgaTextDevice × Option Screen

def VgaStep (s : VgaState) (op : VgaOp) (s' : VgaState) : Prop :=
  (∃ st, op.exec s.1 = some (st, s'.1)) ∧ s'.2 = op.show s.2

def PlainStep (s : VgaState) (op : VgaOp) (s' : VgaState) : Prop := op.Plain s.1 ∧ VgaStep s op s'

/-- The device before `vga_text_init`, whatever the memory holds. -/
def VgaState.off (buffer : Cells) : VgaState := (⟨0, 0, 0#8, buffer, false⟩, none)

theorem Refines.cursor {s : VgaState} (h : Refines s.1 s.2) : s.1.cursorX < 80 ∧ s.1.cursorY < 25 := by
  obtain ⟨dev, screen⟩ := s
  cases screen with
  | none => exact ⟨by rw [h.2.1]; decide, by rw [h.2.2]; decide⟩
  | some s => exact ⟨h.x ▸ s.x.isLt, h.y ▸ s.y.isLt⟩

/-- In every run of plain calls the device refines the screen, the cursor stays inside it,
and no call accesses anything outside the cells. -/
theorem vga_run_refines {buffer : Cells} {s : VgaState} (run : Run PlainStep (.off buffer) s) :
    Refines s.1 s.2 ∧ s.1.cursorX < 80 ∧ s.1.cursorY < 25 ∧
      ∀ op : VgaOp, op.Plain s.1 → ∃ st dev, op.exec s.1 = some (st, dev) := by
  have hoff : Refines (VgaState.off buffer).1 none := ⟨rfl, rfl, rfl⟩
  have hinv : Refines s.1 s.2 := by
    refine @Run.invariant _ _ _ (fun s : VgaState => Refines s.1 s.2) ?_ _ _ run hoff
    rintro s op t ⟨hplain, ⟨st, hrun⟩, hshow⟩ hs
    obtain ⟨st', dev', hrun', hs'⟩ := hs.exec _ hplain
    cases hrun.symm.trans hrun'
    rw [hshow]
    exact hs'
  obtain ⟨hx, hy⟩ := hinv.cursor
  refine ⟨hinv, hx, hy, fun op hplain => ?_⟩
  obtain ⟨st, dev, hrun, -⟩ := hinv.exec _ hplain
  exact ⟨st, dev, hrun⟩

/-- A letter on a fresh screen. -/
theorem vga_run_refines_letter :
    ∃ s : VgaState, Run PlainStep (.off fun _ => 0#16) s ∧ s.1.cursorX < 80 ∧
      ∃ screen, s.2 = some screen ∧ screen.cells 0 0 = (ascii 'A', 7#8) ∧ Refines s.1 s.2 := by
  have hoff : Refines (VgaState.off fun _ => 0#16).1 none := ⟨rfl, rfl, rfl⟩
  obtain ⟨st₁, dev₁, hrun₁, h₁⟩ := hoff.exec .init trivial
  obtain ⟨st₂, dev₂, hrun₂, h₂⟩ := h₁.exec (.putchar (ascii 'A')) fun _ => Or.inl rfl
  have hsteps : Run PlainStep (.off fun _ => 0#16) (dev₂, _) :=
    ((Run.refl _).snoc (a := .init) (u := (dev₁, _)) ⟨trivial, ⟨st₁, hrun₁⟩, rfl⟩).snoc
      (a := .putchar (ascii 'A')) ⟨fun _ => Or.inl rfl, ⟨st₂, hrun₂⟩, rfl⟩
  obtain ⟨hrefines, hx, -⟩ := vga_run_refines hsteps
  exact ⟨_, hsteps, hx, _, rfl, by decide, hrefines⟩

/-- The byte 0x80 in light grey shows up in bright white on a blinking ground. -/
theorem vga_sign_extended :
    ¬ ∀ (buffer : Cells) (s : VgaState), Run VgaStep (.off buffer) s → Refines s.1 s.2 := by
  intro h
  have hoff : Refines (VgaState.off fun _ => 0#16).1 none := ⟨rfl, rfl, rfl⟩
  obtain ⟨st₁, dev₁, hrun₁, h₁⟩ := hoff.exec .init trivial
  have hput : vgaTextPutcharAt dev₁ 0x80#8 7#8 0 0 = some (.ok,
      { dev₁ with buffer := Function.update dev₁.buffer 0 (vgaMakeEntry 0x80#8 7#8) }) := by
    rw [vgaTextPutcharAt, if_neg (by simp [h₁.initialized])]
    rfl
  have hsteps : Run VgaStep (.off fun _ => 0#16) (_, _) :=
    ((Run.refl _).snoc (a := .init) (u := (dev₁, _)) ⟨⟨st₁, hrun₁⟩, rfl⟩).snoc
      (a := .putcharAt 0x80#8 7#8 0 0) ⟨⟨.ok, hput⟩, rfl⟩
  have hcell := (h _ _ hsteps).cells 0 0
  have hentry : vgaMakeEntry 0x80#8 7#8 = 7#8 ++ 0x80#8 := hcell
  exact absurd hentry (by decide)

end Frostix.Drivers
