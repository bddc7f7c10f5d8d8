import Frostix.Drivers.Vbe

/-!
Filling a rectangle against setting its pixels. A fill advances by the bytes that it stores
for a pixel, a single pixel is found by a division of the depth by 8: at 15 bits the two
differ. At 8 bits a fill leaves a line out that starts at the null pointer. -/
namespace Frostix.Drivers

open Machine32 ByteMemory CellStores Tty

def VbeDevice.pixelBytes (dev : VbeDevice) : Nat := (dev.bpp.toNat + 7) / 8

structure Ready (dev : VbeDevice) : Prop where
  initialized : dev.initialized = true
  depth : dev.bpp = 8 ∨ dev.bpp = 15 ∨ dev.bpp = 16 ∨ dev.bpp = 24 ∨ dev.bpp = 32

structure Format (dev : VbeDevice) : Prop extends Ready dev where
  pitch : dev.width.toNat * dev.pixelBytes ≤ dev.pitch.toNat

/-- The framebuffer has the size that `vbe_init` computes. -/
structure Mode (dev : VbeDevice) : Prop extends Format dev where
  size : dev.framebufferSize = dev.height.toNat * dev.pitch.toNat

/-- `vbe_init` sets up a mode from every description with a depth of the driver and rows that have
room for their pixels. -/
theorem vbeInit_mode (dev : VbeDevice) {mode : VbeModeInfo}
    (hdepth : mode.bitsPerPixel = 8 ∨ mode.bitsPerPixel = 15 ∨ mode.bitsPerPixel = 16 ∨ mode.bitsPerPixel = 24 ∨
      mode.bitsPerPixel = 32)
    (hpitch : mode.xResolution.toNat * (vbeInit dev (some mode)).2.pixelBytes ≤ (vbeInit dev (some mode)).2.pitch.toNat) :
    Mode (vbeInit dev (some mode)).2 :=
  ⟨⟨⟨rfl, hdepth⟩, hpitch⟩, rfl⟩

def VbeDevice.cell (dev : VbeDevice) (x y : Nat) : Nat := y * dev.pitch.toNat + x * dev.pixelBytes

def VbeDevice.Spaced (dev : VbeDevice) : Prop :=
  ∀ x < dev.width.toNat, x * (dev.bpp.toNat / 8) = x * dev.pixelBytes

theorem store_zero (fb : Mem) (a : Nat) (v : BitVec 32) : store fb a 0 v = fb := rfl

theorem store_succ (fb : Mem) (a n : Nat) (v : BitVec 32) :
    store fb a (n + 1) v = store8 (store fb a n v) (wrap (a + n)) (byteAt v n) := by
  rw [store, List.range_succ, List.foldl_append]
  rfl

theorem store_apply (fb : Mem) {a n : Nat} (v : BitVec 32) (h : a + n ≤ 2 ^ 32) (x : Nat) :
    store fb a n v x = if a ≤ x ∧ x < a + n then byteAt v (x - a) else fb x := by
  induction n with
  | zero => rw [store_zero, if_neg (by omega)]
  | succ n ih =>
      rw [store_succ, store8, wrap_of_lt (by omega), ih (by omega)]
      by_cases hx : x = a + n
      · rw [if_pos hx, if_pos (by omega), hx, Nat.add_sub_cancel_left]
      · rw [if_neg hx]
        exact if_congr (by omega) rfl rfl

theorem store_paints {a n : Nat} {v : BitVec 32} {g : Nat → BitVec 8} (h : a + n ≤ 2 ^ 32)
    (hg : ∀ k < n, g (a + k) = byteAt v k) : Paints (fun fb => store fb a n v) {o | ∃ k < n, o = a + k} g := by
  constructor
  · rintro fb o ⟨k, hk, rfl⟩
    rw [store_apply fb v h, if_pos (by omega), Nat.add_sub_cancel_left, hg k hk]
  · intro fb o ho
    rw [store_apply fb v h, if_neg]
    rintro ⟨hlo, hhi⟩
    exact ho ⟨o - a, by omega, by omega⟩

theorem store_bytes (fb : Mem) (a : Nat) (v : BitVec 32) :
    store (store (store fb (a + 0) 1 v) (a + 1) 1 (v >>> 8)) (a + 2) 1 (v >>> 16) = store fb a 3 v := by
  simp [store, List.range_succ, byteAt]

theorem store_masked (fb : Mem) (a : Nat) (v : BitVec 32) : store fb a 1 (v &&& 0xFF#32) = store fb a 1 v := by
  have hbyte : byteAt (v &&& 0xFF#32) 0 = byteAt v 0 := by
    apply BitVec.eq_of_toNat_eq
    have hmod : v.toNat &&& 255 = v.toNat % 256 := Nat.and_two_pow_sub_one_eq_mod v.toNat 8
    simp only [byteAt, Nat.mul_zero, BitVec.ushiftRight_zero, BitVec.toNat_setWidth, BitVec.toNat_and,
      BitVec.toNat_ofNat, Nat.reducePow, Nat.reduceMod, hmod, Nat.mod_mod]
  rw [store_succ, store_succ, hbyte]
  rfl

variable {dev : VbeDevice}

theorem Ready.accepts (hm : Ready dev) {x y : UInt16} (hx : x < dev.width) (hy : y < dev.height) :
    (!dev.initialized || decide (dev.width ≤ x) || decide (dev.height ≤ y)) = false := by
  simp [hm.initialized, UInt16.not_le.mpr hx, UInt16.not_le.mpr hy]

theorem vbePutPixel_eq (hm : Ready dev) (fb : Mem) {x y : UInt16} (hx : x < dev.width) (hy : y < dev.height)
    (color : VbeColor) :
    vbePutPixel dev fb x y color =
      (.ok, store fb (pixelOffset dev x y) dev.pixelBytes (vbeColorToPixel dev color)) := by
  unfold vbePutPixel VbeDevice.pixelBytes
  rw [hm.accepts hx hy]
  rcases hm.depth with h | h | h | h | h <;> simp [h, store_masked, ← store_bytes]

theorem vbeGetPixel_eq (hm : Ready dev) (fb : Mem) {x y : UInt16} (hx : x < dev.width) (hy : y < dev.height) :
    vbeGetPixel dev fb x y = vbePixelToColor dev (load fb (pixelOffset dev x y) dev.pixelBytes) := by
  unfold vbeGetPixel VbeDevice.pixelBytes
  rw [hm.accepts hx hy]
  rcases hm.depth with h | h | h | h | h <;> simp [h]

theorem cell_bounds (hm : Format dev) {x y k : Nat} (hx : x < dev.width.toNat) (hy : y < dev.height.toNat)
    (hk : k < dev.pixelBytes) :
    dev.cell x y + k < (y + 1) * dev.pitch.toNat ∧
      (y + 1) * dev.pitch.toNat ≤ dev.height.toNat * dev.pitch.toNat := by
  have hcol : (x + 1) * dev.pixelBytes ≤ dev.width.toNat * dev.pixelBytes := Nat.mul_le_mul_right _ hx
  have hrow : (y + 1) * dev.pitch.toNat ≤ dev.height.toNat * dev.pitch.toNat := Nat.mul_le_mul_right _ hy
  have hpitch := hm.pitch
  rw [Nat.succ_mul] at hcol
  refine ⟨?_, hrow⟩
  rw [Nat.succ_mul, VbeDevice.cell]
  omega

theorem screen_lt (dev : VbeDevice) : dev.height.toNat * dev.pitch.toNat < 2 ^ 32 := by
  have hh := dev.height.toNat_lt
  have hp := dev.pitch.toNat_lt
  have hmul : dev.height.toNat * dev.pitch.toNat ≤ 65535 * 65535 := Nat.mul_le_mul (by omega) (by omega)
  omega

theorem pixelBytes_pos (hm : Format dev) : 0 < dev.pixelBytes := by
  unfold VbeDevice.pixelBytes
  rcases hm.depth with h | h | h | h | h <;> simp [h]

theorem cell_le (hm : Format dev) {x y : Nat} (hx : x < dev.width.toNat) (hy : y < dev.height.toNat) :
    dev.cell x y + dev.pixelBytes ≤ dev.height.toNat * dev.pitch.toNat := by
  have hpos := pixelBytes_pos hm
  obtain ⟨hrow, hsize⟩ := cell_bounds hm hx hy (show dev.pixelBytes - 1 < dev.pixelBytes by omega)
  omega

theorem cell_split (hm : Format dev) {x y k : Nat} (hx : x < dev.width.toNat) (hk : k < dev.pixelBytes) :
    (dev.cell x y + k) / dev.pitch.toNat = y ∧ (dev.cell x y + k) % dev.pitch.toNat = x * dev.pixelBytes + k := by
  have hcol : (x + 1) * dev.pixelBytes ≤ dev.width.toNat * dev.pixelBytes := Nat.mul_le_mul_right _ hx
  have hpitch := hm.pitch
  rw [Nat.succ_mul] at hcol
  have hlt : x * dev.pixelBytes + k < dev.pitch.toNat := by omega
  have hsplit : dev.cell x y + k = dev.pitch.toNat * y + (x * dev.pixelBytes + k) := by
    rw [VbeDevice.cell, Nat.mul_comm]
    omega
  rw [hsplit, Nat.mul_add_div (by omega), Nat.div_eq_of_lt hlt, Nat.mul_add_mod, Nat.mod_eq_of_lt hlt]
  exact ⟨rfl, rfl⟩

theorem cell_inj (hm : Format dev) {x y k x' y' k' : Nat} (hx : x < dev.width.toNat) (hx' : x' < dev.width.toNat)
    (hk : k < dev.pixelBytes) (hk' : k' < dev.pixelBytes) (h : dev.cell x y + k = dev.cell x' y' + k') :
    x = x' ∧ y = y' ∧ k = k' := by
  obtain ⟨hrow, hcol⟩ := @cell_split dev hm x y k hx hk
  obtain ⟨hrow', hcol'⟩ := @cell_split dev hm x' y' k' hx' hk'
  rw [h, hrow'] at hrow
  rw [h, hcol'] at hcol
  have hdiv := congrArg (· / dev.pixelBytes) hcol
  have hpos := pixelBytes_pos hm
  simp only [Nat.mul_comm _ dev.pixelBytes, Nat.mul_add_div hpos, Nat.div_eq_of_lt hk,
    Nat.div_eq_of_lt hk', Nat.add_zero] at hdiv
  subst hdiv
  exact ⟨rfl, hrow.symm, by omega⟩

/-- The bytes of a pixel of this value, at every offset of the framebuffer. -/
def VbeDevice.picture (dev : VbeDevice) (pixel : BitVec 32) (o : Nat) : BitVec 8 :=
  byteAt pixel (o % dev.pitch.toNat % dev.pixelBytes)

def VbeDevice.cellBytes (dev : VbeDevice) (x y : Nat) : Set Nat :=
  {o | ∃ k < dev.pixelBytes, o = dev.cell x y + k}

theorem storeCell_paints (hm : Format dev) {x y : Nat} (hx : x < dev.width.toNat) (hy : y < dev.height.toNat)
    (pixel : BitVec 32) :
    Paints (fun fb => store fb (dev.cell x y) dev.pixelBytes pixel) (dev.cellBytes x y) (dev.picture pixel) := by
  have hle := cell_le hm hx hy
  have hlt := screen_lt dev
  refine store_paints (by omega) fun k hk => ?_
  rw [VbeDevice.picture, (cell_split hm hx hk).2, Nat.mul_comm, Nat.mul_add_mod, Nat.mod_eq_of_lt hk]

theorem pixelOffset_eq (hm : Format dev) (hs : dev.Spaced) {x y : UInt16} (hx : x < dev.width)
    (hy : y < dev.height) :
    pixelOffset dev x y = dev.cell x.toNat y.toNat := by
  have hle := cell_le hm (UInt16.lt_iff_toNat_lt.mp hx) (UInt16.lt_iff_toNat_lt.mp hy)
  have hlt := screen_lt dev
  rw [pixelOffset, hs _ (UInt16.lt_iff_toNat_lt.mp hx), ← VbeDevice.cell, wrap_of_lt (by omega)]

theorem vbePutPixel_paints (hm : Format dev) (hs : dev.Spaced) {x y : UInt16} (hx : x < dev.width)
    (hy : y < dev.height) (color : VbeColor) :
    Paints (fun fb => (vbePutPixel dev fb x y color).2) (dev.cellBytes x.toNat y.toNat)
      (dev.picture (vbeColorToPixel dev color)) := by
  have hfun : (fun fb => (vbePutPixel dev fb x y color).2) = fun fb =>
      store fb (dev.cell x.toNat y.toNat) dev.pixelBytes (vbeColorToPixel dev color) := by
    funext fb
    rw [vbePutPixel_eq hm.toReady fb hx hy, pixelOffset_eq hm hs hx hy]
  rw [hfun]
  exact storeCell_paints hm (UInt16.lt_iff_toNat_lt.mp hx) (UInt16.lt_iff_toNat_lt.mp hy) _

/-- No line of the framebuffer's pixels starts at the null pointer, where `memset` refuses. -/
def VbeDevice.NotNull (dev : VbeDevice) : Prop :=
  dev.bpp = 8 → ∀ x < dev.width.toNat, ∀ y < dev.height.toNat,
    wrap (dev.framebufferAddr.toNat + dev.cell x y) ≠ 0

theorem fillRow_eq (hm : Format dev) (fb : Mem) {line : Nat} (width : Nat) (pixel : BitVec 32)
    (hnull : dev.bpp = 8 → wrap (dev.framebufferAddr.toNat + line) ≠ 0) :
    fillRow dev fb line width pixel =
      some ((List.range width).foldl (fun fb i => store fb (line + i * dev.pixelBytes) dev.pixelBytes pixel) fb) := by
  unfold fillRow VbeDevice.pixelBytes
  rcases hm.depth with h | h | h | h | h
  · simp [h, memsetLine, hnull h]
  · simp [h, Nat.mul_comm]
  · simp [h, Nat.mul_comm]
  · simp [h, ← store_bytes, Nat.add_assoc]
  · simp [h, Nat.mul_comm]

/-- The rectangles that `vbe_fill_rect` takes. -/
structure InScreen (dev : VbeDevice) (x y width height : UInt16) : Prop where
  columns : x.toNat + width.toNat ≤ dev.width.toNat
  rows : y.toNat + height.toNat ≤ dev.height.toNat
  width_pos : width ≠ 0
  height_pos : height ≠ 0

def VbeDevice.rectBytes (dev : VbeDevice) (x y width height : UInt16) : Set Nat :=
  {o | ∃ j ∈ List.range height.toNat, ∃ i ∈ List.range width.toNat, o ∈ dev.cellBytes (x.toNat + i) (y.toNat + j)}

theorem vbeFillRect_rejects (fb : Mem) (color : VbeColor) {x y width height : UInt16} (hm : Format dev)
    (h : ¬ InScreen dev x y width height) : vbeFillRect dev fb x y width height color = (.invalidParam, fb) := by
  unfold vbeFillRect
  rw [if_pos]
  simp only [hm.initialized, Bool.not_true, Bool.false_or, Bool.or_eq_true, decide_eq_true_eq, beq_iff_eq]
  by_contra hnone
  simp only [not_or, not_lt] at hnone
  exact h ⟨hnone.1.1.1, hnone.1.1.2, hnone.1.2, hnone.2⟩

/-- An accepted rectangle is filled row by row. -/
theorem vbeFillRect_eq (hm : Format dev) (hs : dev.Spaced) (hn : dev.NotNull) {x y width height : UInt16}
    (h : InScreen dev x y width height) (fb : Mem) (color : VbeColor) :
    vbeFillRect dev fb x y width height color =
      (.ok, (List.range height.toNat).foldl (fun fb j => (List.range width.toNat).foldl (fun fb i =>
        store fb (dev.cell (x.toNat + i) (y.toNat + j)) dev.pixelBytes (vbeColorToPixel dev color)) fb) fb) := by
  have hcols := h.columns
  have hrows := h.rows
  have hwpos : 0 < width.toNat := Nat.pos_of_ne_zero fun hz => h.width_pos (UInt16.toNat_inj.mp hz)
  have hsize := screen_lt dev
  have hguard : ¬ ((!dev.initialized || decide (dev.width.toNat < x.toNat + width.toNat) ||
      decide (dev.height.toNat < y.toNat + height.toNat) || width == 0 || height == 0) = true) := by
    simp [hm.initialized, Nat.not_lt.mpr hcols, Nat.not_lt.mpr hrows, h.width_pos, h.height_pos]
  -- the line of a row is where its first pixel is
  have hline : ∀ j < height.toNat, wrap (wrap (y.toNat * dev.pitch.toNat + x.toNat * (dev.bpp.toNat / 8)) +
      j * dev.pitch.toNat) = dev.cell x.toNat (y.toNat + j) := by
    intro j hj
    have hle := cell_le hm (show x.toNat < dev.width.toNat by omega)
      (show y.toNat + j < dev.height.toNat by omega)
    have hsum : y.toNat * dev.pitch.toNat + x.toNat * dev.pixelBytes + j * dev.pitch.toNat =
        dev.cell x.toNat (y.toNat + j) := by
      rw [VbeDevice.cell, Nat.add_mul]
      omega
    have hfirst : y.toNat * dev.pitch.toNat + x.toNat * dev.pixelBytes < 2 ^ 32 := by omega
    rw [hs x.toNat (by omega), wrap_of_lt hfirst, hsum, wrap_of_lt (by omega)]
  unfold vbeFillRect
  rw [if_neg hguard]
  dsimp only
  rw [Loop.foldlM_eq_some (g := fun fb j => (List.range width.toNat).foldl (fun fb i =>
    store fb (dev.cell (x.toNat + i) (y.toNat + j)) dev.pixelBytes (vbeColorToPixel dev color)) fb)]
  intro j hj fb'
  rw [List.mem_range] at hj
  rw [hline j hj, fillRow_eq hm fb' width.toNat _ fun h8 => hn h8 _ (by omega) _ (by omega)]
  have hcell : ∀ i, dev.cell x.toNat (y.toNat + j) + i * dev.pixelBytes =
      dev.cell (x.toNat + i) (y.toNat + j) := by
    intro i
    simp only [VbeDevice.cell, Nat.add_mul, Nat.add_assoc]
  simp only [hcell]

theorem vbeFillRect_paints (hm : Format dev) (hs : dev.Spaced) (hn : dev.NotNull) {x y width height : UInt16}
    (h : InScreen dev x y width height) (color : VbeColor) :
    Paints (fun fb => (vbeFillRect dev fb x y width height color).2) (dev.rectBytes x y width height)
      (dev.picture (vbeColorToPixel dev color)) := by
  have hcols := h.columns
  have hrows := h.rows
  simp only [vbeFillRect_eq hm hs hn h]
  refine Paints.foldl _ fun j hj => Paints.foldl _ fun i hi => ?_
  rw [List.mem_range] at hi hj
  exact storeCell_paints hm (by omega) (by omega) _

/-- `vbe_clear_screen` paints every pixel. -/
theorem vbeClearScreen_paints (hm : Format dev) (hs : dev.Spaced) (hn : dev.NotNull) (hwidth : dev.width ≠ 0)
    (hheight : dev.height ≠ 0) (color : VbeColor) :
    Paints (fun fb => (vbeClearScreen dev fb color).2) (dev.rectBytes 0 0 dev.width dev.height)
      (dev.picture (vbeColorToPixel dev color)) :=
  vbeFillRect_paints hm hs hn ⟨by simp, by simp, hwidth, hheight⟩ color

theorem load_congr {fb fb' : Mem} {a n : Nat} (h : ∀ k < n, fb' (wrap (a + k)) = fb (wrap (a + k))) :
    load fb' a n = load fb a n := by
  unfold load
  refine List.foldl_ext _ _ _ fun v k hk => ?_
  rw [h k (List.mem_range.mp hk)]

theorem vbeGetPixel_congr (hm : Format dev) (hs : dev.Spaced) {fb fb' : Mem} {x y : UInt16} (hx : x < dev.width)
    (hy : y < dev.height) (h : ∀ o ∈ dev.cellBytes x.toNat y.toNat, fb' o = fb o) :
    vbeGetPixel dev fb' x y = vbeGetPixel dev fb x y := by
  have hle := cell_le hm (UInt16.lt_iff_toNat_lt.mp hx) (UInt16.lt_iff_toNat_lt.mp hy)
  have hlt := screen_lt dev
  rw [vbeGetPixel_eq hm.toReady fb' hx hy, vbeGetPixel_eq hm.toReady fb hx hy, pixelOffset_eq hm hs hx hy]
  refine congrArg _ (load_congr fun k hk => ?_)
  rw [wrap_of_lt (by omega)]
  exact h _ ⟨k, hk, rfl⟩

/-- A rectangle is filled as by setting its pixels, in any order and also repeatedly;
nothing is written behind the framebuffer; and no other pixel changes with one. -/
structure FillsAsPixels (dev : VbeDevice) : Prop where
  equal : ∀ fb x y width height color, (vbeFillRect dev fb x y width height color).1 = .ok →
    ∀ ps : List (UInt16 × UInt16),
      (∀ p, p ∈ ps ↔ (x ≤ p.1 ∧ p.1.toNat < x.toNat + width.toNat) ∧
        (y ≤ p.2 ∧ p.2.toNat < y.toNat + height.toNat)) →
      (vbeFillRect dev fb x y width height color).2 =
        ps.foldl (fun fb p => (vbePutPixel dev fb p.1 p.2 color).2) fb
  inside : ∀ fb x y width height color, (vbeFillRect dev fb x y width height color).1 = .ok →
    ∀ o, dev.framebufferSize ≤ o → (vbeFillRect dev fb x y width height color).2 o = fb o
  others : ∀ fb color x y x' y', x < dev.width → y < dev.height → x' < dev.width → y' < dev.height →
    (x', y') ≠ (x, y) → vbeGetPixel dev (vbePutPixel dev fb x y color).2 x' y' = vbeGetPixel dev fb x' y'

theorem accepted_of_ok (hm : Format dev) {fb : Mem} {x y width height : UInt16} {color : VbeColor}
    (h : (vbeFillRect dev fb x y width height color).1 = .ok) : InScreen dev x y width height := by
  by_contra hout
  rw [vbeFillRect_rejects fb color hm hout] at h
  cases h

theorem cellBytes_lt (hm : Format dev) {x y o : Nat} (hx : x < dev.width.toNat) (hy : y < dev.height.toNat)
    (ho : o ∈ dev.cellBytes x y) : o < dev.height.toNat * dev.pitch.toNat := by
  obtain ⟨k, hk, rfl⟩ := ho
  have hle := cell_le hm hx hy
  omega

theorem cellBytes_disjoint (hm : Format dev) {x y x' y' o : Nat} (hx : x < dev.width.toNat)
    (hx' : x' < dev.width.toNat) (ho : o ∈ dev.cellBytes x y) (ho' : o ∈ dev.cellBytes x' y') :
    x = x' ∧ y = y' := by
  obtain ⟨k, hk, rfl⟩ := ho
  obtain ⟨k', hk', heq⟩ := ho'
  obtain ⟨hcol, hrow, -⟩ := cell_inj hm hx hx' hk hk' heq
  exact ⟨hcol, hrow⟩

theorem pixels_eq_rectBytes {x y width height : UInt16} (hin : InScreen dev x y width height)
    {ps : List (UInt16 × UInt16)}
    (hps : ∀ p, p ∈ ps ↔ (x ≤ p.1 ∧ p.1.toNat < x.toNat + width.toNat) ∧
      (y ≤ p.2 ∧ p.2.toNat < y.toNat + height.toNat)) :
    {o | ∃ p ∈ ps, o ∈ dev.cellBytes p.1.toNat p.2.toNat} = dev.rectBytes x y width height := by
  have hcols := hin.columns
  have hrows := hin.rows
  ext o
  constructor
  · rintro ⟨p, hp, ho⟩
    obtain ⟨⟨hxlo, hx⟩, hylo, hy⟩ := (hps p).mp hp
    rw [UInt16.le_iff_toNat_le] at hxlo hylo
    refine ⟨p.2.toNat - y.toNat, List.mem_range.mpr (by omega), p.1.toNat - x.toNat,
      List.mem_range.mpr (by omega), ?_⟩
    rwa [Nat.add_sub_cancel' hxlo, Nat.add_sub_cancel' hylo]
  · rintro ⟨j, hj, i, hi, ho⟩
    rw [List.mem_range] at hi hj
    have hw := dev.width.toNat_lt
    have hh := dev.height.toNat_lt
    have hx : (UInt16.ofNat (x.toNat + i)).toNat = x.toNat + i := by
      rw [UInt16.toNat_ofNat', Nat.mod_eq_of_lt (by omega)]
    have hy : (UInt16.ofNat (y.toNat + j)).toNat = y.toNat + j := by
      rw [UInt16.toNat_ofNat', Nat.mod_eq_of_lt (by omega)]
    refine ⟨(UInt16.ofNat (x.toNat + i), UInt16.ofNat (y.toNat + j)), (hps _).mpr ?_, ?_⟩
    · rw [UInt16.le_iff_toNat_le, UInt16.le_iff_toNat_le, hx, hy]
      omega
    · rwa [hx, hy]

/-- Pixels at their right distance are filled as one by one. -/
theorem fillsAsPixels_of_spaced (hm : Mode dev) (hs : dev.Spaced) (hn : dev.NotNull) : FillsAsPixels dev where
  equal := by
    intro fb x y width height color hok ps hps
    have hin := accepted_of_ok hm.toFormat hok
    have hcols := hin.columns
    have hrows := hin.rows
    have hpixels : Paints (fun fb => ps.foldl (fun fb p => (vbePutPixel dev fb p.1 p.2 color).2) fb)
        {o | ∃ p ∈ ps, o ∈ dev.cellBytes p.1.toNat p.2.toNat} (dev.picture (vbeColorToPixel dev color)) := by
      refine Paints.foldl ps fun p hp => ?_
      obtain ⟨⟨-, hx⟩, -, hy⟩ := (hps p).mp hp
      exact vbePutPixel_paints hm.toFormat hs (UInt16.lt_iff_toNat_lt.mpr (by omega))
        (UInt16.lt_iff_toNat_lt.mpr (by omega)) color
    rw [pixels_eq_rectBytes hin hps] at hpixels
    exact (vbeFillRect_paints hm.toFormat hs hn hin color).unique hpixels fb
  inside := by
    intro fb x y width height color hok o ho
    have hin := accepted_of_ok hm.toFormat hok
    have hcols := hin.columns
    have hrows := hin.rows
    refine (vbeFillRect_paints hm.toFormat hs hn hin color).outside fb o ?_
    rintro ⟨j, hj, i, hi, hmem⟩
    rw [List.mem_range] at hi hj
    have hlt := cellBytes_lt hm.toFormat (by omega) (by omega) hmem
    rw [← hm.size] at hlt
    exact absurd hlt (Nat.not_lt.mpr ho)
  others := by
    intro fb color x y x' y' hx hy hx' hy' hne
    refine vbeGetPixel_congr hm.toFormat hs hx' hy' fun o ho =>
      (vbePutPixel_paints hm.toFormat hs hx hy color).outside fb o ?_
    intro hmem
    obtain ⟨hcol, hrow⟩ := cellBytes_disjoint hm.toFormat (UInt16.lt_iff_toNat_lt.mp hx')
      (UInt16.lt_iff_toNat_lt.mp hx) ho hmem
    exact hne (Prod.ext (UInt16.toNat_inj.mp hcol) (UInt16.toNat_inj.mp hrow))

theorem vbeColorToPixel_black (dev : VbeDevice) : vbeColorToPixel dev ⟨0#8, 0#8, 0#8, 0#8⟩ = 0#32 := by
  have hzero : ∀ size, channelToField 0#8 size = 0#32 := by
    intro size
    unfold channelToField
    split_ifs <;> simp
  simp [vbeColorToPixel, hzero]

theorem store_black (fb : Mem) {a n : Nat} (h : a + n ≤ 2 ^ 32) (x : Nat) :
    store fb a n 0#32 x = if a ≤ x ∧ x < a + n then 0#8 else fb x := by
  rw [store_apply fb _ h]
  exact if_congr Iff.rfl (by simp [byteAt]) rfl

theorem spaced_iff (hm : Format dev) : dev.Spaced ↔ (dev.bpp = 15 → dev.width ≤ 1) := by
  unfold VbeDevice.Spaced VbeDevice.pixelBytes
  rw [UInt16.le_iff_toNat_le]
  rcases hm.depth with h | h | h | h | h
  · simp [h]
  · rw [h]
    constructor
    · intro hs _
      by_contra hwide
      have hone := hs 1 (not_le.mp hwide)
      simp at hone
    · intro hw x hx
      have hle : dev.width.toNat ≤ 1 := hw rfl
      obtain rfl : x = 0 := by omega
      simp
  · simp [h]
  · simp [h]
  · simp [h]

/-- At 15 bits a fill of two pixels reaches a byte that setting them does not. -/
theorem not_fillsAsPixels_of_overlap (hm : Format dev) (hbpp : dev.bpp = 15) (hw : 2 ≤ dev.width.toNat)
    (hh : 1 ≤ dev.height.toNat) : ¬ FillsAsPixels dev := by
  intro h
  let fb : Mem := fun _ => 255#8
  let black : VbeColor := ⟨0#8, 0#8, 0#8, 0#8⟩
  have hbytes : dev.pixelBytes = 2 := by
    rw [VbeDevice.pixelBytes, hbpp]
    rfl
  have hx₀ : (0 : UInt16) < dev.width := UInt16.lt_iff_toNat_lt.mpr (by simp; omega)
  have hx₁ : (1 : UInt16) < dev.width := UInt16.lt_iff_toNat_lt.mpr (by simp; omega)
  have hy₀ : (0 : UInt16) < dev.height := UInt16.lt_iff_toNat_lt.mpr (by simp; omega)
  have hfill : vbeFillRect dev fb 0 0 2 1 black = (.ok, store (store fb 0 2 0#32) 2 2 0#32) := by
    unfold vbeFillRect
    rw [if_neg (by simp [hm.initialized]; omega)]
    have hrow : fillRow dev fb 0 2 0#32 = _ := fillRow_eq hm fb 2 0#32 (by simp [hbpp])
    simp [black, vbeColorToPixel_black, hrow, hbytes, List.range_succ, wrap]
  have hpixels : ∀ p, p ∈ [((0 : UInt16), (0 : UInt16)), (1, 0)] ↔
      ((0 : UInt16) ≤ p.1 ∧ p.1.toNat < (0 : UInt16).toNat + (2 : UInt16).toNat) ∧
        ((0 : UInt16) ≤ p.2 ∧ p.2.toNat < (0 : UInt16).toNat + (1 : UInt16).toNat) := by
    rintro ⟨a, b⟩
    simp only [List.mem_cons, List.not_mem_nil, or_false, Prod.mk.injEq, ← UInt16.toNat_inj,
      UInt16.le_iff_toNat_le]
    simp
    omega
  have hput : ∀ (fb : Mem) (x : UInt16), x < dev.width → x.toNat < 2 →
      (vbePutPixel dev fb x 0 black).2 = store fb x.toNat 2 0#32 := by
    intro fb x hx hsmall
    have hoff : pixelOffset dev x 0 = x.toNat := by simp [pixelOffset, hbpp, wrap]
    rw [vbePutPixel_eq hm.toReady fb hx hy₀, hoff, hbytes, vbeColorToPixel_black]
  have hequal := h.equal fb 0 0 2 1 black (by rw [hfill]) _ hpixels
  rw [hfill] at hequal
  have hbyte := congrFun hequal 3
  simp only [List.foldl_cons, List.foldl_nil, hput _ 0 hx₀ (by decide), hput _ 1 hx₁ (by decide)] at hbyte
  rw [store_black _ (by decide), if_pos (by decide), store_black _ (by decide), if_neg (by decide),
    store_black _ (by decide), if_neg (by decide)] at hbyte
  exact absurd hbyte (by decide)

/-- At 8 bits `memset` leaves out a pixel that is at the null pointer. -/
theorem not_fillsAsPixels_of_null (hm : Format dev) (hbpp : dev.bpp = 8) {x y : Nat} (hx : x < dev.width.toNat)
    (hy : y < dev.height.toNat) (hnull : wrap (dev.framebufferAddr.toNat + dev.cell x y) = 0) :
    ¬ FillsAsPixels dev := by
  intro h
  let fb : Mem := fun _ => 255#8
  let black : VbeColor := ⟨0#8, 0#8, 0#8, 0#8⟩
  have hs : dev.Spaced := (spaced_iff hm).mpr (by simp [hbpp])
  have hbytes : dev.pixelBytes = 1 := by
    rw [VbeDevice.pixelBytes, hbpp]
    rfl
  obtain ⟨x, rfl⟩ : ∃ x' : UInt16, x'.toNat = x :=
    ⟨UInt16.ofNat x, UInt16.toNat_ofNat_of_lt' (lt_trans hx dev.width.toNat_lt)⟩
  obtain ⟨y, rfl⟩ : ∃ y' : UInt16, y'.toNat = y :=
    ⟨UInt16.ofNat y, UInt16.toNat_ofNat_of_lt' (lt_trans hy dev.height.toNat_lt)⟩
  have hle := cell_le hm hx hy
  have hlt := screen_lt dev
  have hfill : vbeFillRect dev fb x y 1 1 black = (.ok, fb) := by
    unfold vbeFillRect
    rw [if_neg (by simp [hm.initialized]; omega)]
    have hcell : y.toNat * dev.pitch.toNat + x.toNat = dev.cell x.toNat y.toNat := by
      rw [VbeDevice.cell, hbytes, Nat.mul_one]
    have hrow : fillRow dev fb (dev.cell x.toNat y.toNat) 1 0#32 = some fb := by
      simp [fillRow, memsetLine, hbpp, hnull]
    have hwrap : wrap (dev.cell x.toNat y.toNat) = dev.cell x.toNat y.toNat := wrap_of_lt (by omega)
    simp [black, vbeColorToPixel_black, hbpp, hcell, hwrap, hrow]
  have hpixel : ∀ p, p ∈ [(x, y)] ↔ (x ≤ p.1 ∧ p.1.toNat < x.toNat + (1 : UInt16).toNat) ∧
      (y ≤ p.2 ∧ p.2.toNat < y.toNat + (1 : UInt16).toNat) := by
    rintro ⟨a, b⟩
    simp only [List.mem_singleton, Prod.mk.injEq, ← UInt16.toNat_inj, UInt16.le_iff_toNat_le]
    simp
    omega
  have hequal := h.equal fb x y 1 1 black (by rw [hfill]) _ hpixel
  rw [hfill] at hequal
  have hx' := UInt16.lt_iff_toNat_lt.mpr hx
  have hy' := UInt16.lt_iff_toNat_lt.mpr hy
  have hbyte := congrFun hequal (dev.cell x.toNat y.toNat)
  simp only [List.foldl_cons, List.foldl_nil, vbePutPixel_eq hm.toReady _ hx' hy', pixelOffset_eq hm hs hx' hy', hbytes,
    black, vbeColorToPixel_black] at hbyte
  rw [store_black _ (by omega), if_pos (by omega)] at hbyte
  exact absurd hbyte (by decide)

/-- A rectangle is filled as by setting its pixels except in two kinds of mode: at 15 bits
with two columns or more, and at 8 bits with a pixel at the null pointer. -/
theorem vbe_fill_rect_iff (hm : Mode dev) :
    FillsAsPixels dev ↔ (dev.bpp = 15 → dev.width ≤ 1 ∨ dev.height = 0) ∧ dev.NotNull := by
  constructor
  · refine fun h => ⟨fun hbpp => ?_, fun hbpp x hx y hy hnull => not_fillsAsPixels_of_null hm.toFormat hbpp hx hy hnull h⟩
    by_contra hbig
    rw [not_or, UInt16.le_iff_toNat_le, ← UInt16.toNat_inj] at hbig
    simp only [UInt16.reduceToNat] at hbig
    exact not_fillsAsPixels_of_overlap hm.toFormat hbpp (by omega) (by omega) h
  · rintro ⟨hnarrow, hnull⟩
    by_cases hheight : dev.height = 0
    · have hnone : dev.height.toNat = 0 := by rw [hheight]; rfl
      have hempty : ∀ {x y width height : UInt16}, ¬ InScreen dev x y width height := fun h =>
        h.height_pos (UInt16.toNat_inj.mp (by have hrows := h.rows; simp; omega))
      refine ⟨fun fb x y w h c hok => absurd (accepted_of_ok hm.toFormat hok) hempty,
        fun fb x y w h c hok => absurd (accepted_of_ok hm.toFormat hok) hempty, fun fb c x y x' y' _ hy => ?_⟩
      rw [UInt16.lt_iff_toNat_lt, hnone] at hy
      exact absurd hy (Nat.not_lt_zero _)
    · exact fillsAsPixels_of_spaced hm ((spaced_iff hm.toFormat).mpr fun h => (hnarrow h).resolve_right hheight) hnull

/-- A screen of 640 by 480 pixels with rows of this length and 5 bits for a channel. -/
def screenOf (bpp : UInt8) (pitch : UInt16) : VbeDevice where
  initialized := true
  framebufferAddr := 0xFD000000
  framebufferSize := 480 * pitch.toNat
  width := 640
  height := 480
  bpp
  pitch
  redMaskSize := 5
  redFieldPosition := 10
  greenMaskSize := 5
  greenFieldPosition := 5
  blueMaskSize := 5
  blueFieldPosition := 0
  rsvdFieldPosition := 15

theorem vbe_fill_rect_16 : FillsAsPixels (screenOf 16 1280) :=
  (vbe_fill_rect_iff ⟨⟨⟨rfl, by decide⟩, by decide⟩, rfl⟩).mpr
    ⟨fun h => absurd h (by decide), fun h => absurd h (by decide)⟩

/-- At 15 bits a white rectangle of two pixels sets four bytes, the two pixels set three. -/
theorem vbe_fill_rect_overlap : Mode (screenOf 15 1280) ∧
    (vbeFillRect (screenOf 15 1280) (fun _ => 0#8) 0 0 2 1 vbeColorWhite).1 = .ok ∧
    (vbeFillRect (screenOf 15 1280) (fun _ => 0#8) 0 0 2 1 vbeColorWhite).2 3 = 0x7F#8 ∧
    ([((0 : UInt16), (0 : UInt16)), (1, 0)].foldl
      (fun fb p => (vbePutPixel (screenOf 15 1280) fb p.1 p.2 vbeColorWhite).2) fun _ => 0#8) 3 = 0#8 :=
  ⟨⟨⟨⟨rfl, by decide⟩, by decide⟩, rfl⟩, by decide, by decide, by decide⟩

end Frostix.Drivers
