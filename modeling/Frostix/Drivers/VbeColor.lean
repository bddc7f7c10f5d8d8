import Frostix.Drivers.VbeFill

/-!
Pixels as colours and back. A field of `s` bits is scaled to a byte and back with two
truncating divisions. The way back is exact if `2 ^ s - 1` divides 255 times the value:
always for 1, 2, 4 and 8 bits, and not for the value 1 of any other field. -/
namespace Frostix.Drivers

open Machine32 ByteMemory Tty

inductive Channel where
  | red
  | green
  | blue
  deriving DecidableEq

def VbeDevice.maskSize (dev : VbeDevice) : Channel → UInt8
  | .red => dev.redMaskSize
  | .green => dev.greenMaskSize
  | .blue => dev.blueMaskSize

def VbeDevice.fieldPosition (dev : VbeDevice) : Channel → UInt8
  | .red => dev.redFieldPosition
  | .green => dev.greenFieldPosition
  | .blue => dev.blueFieldPosition

def channel (color : VbeColor) : Channel → BitVec 8
  | .red => color.red
  | .green => color.green
  | .blue => color.blue

def VbeDevice.InField (dev : VbeDevice) (c : Channel) (i : Nat) : Prop :=
  (dev.fieldPosition c).toNat ≤ i ∧ i < (dev.fieldPosition c).toNat + (dev.maskSize c).toNat

structure Fields (dev : VbeDevice) : Prop where
  size : ∀ c, 1 ≤ (dev.maskSize c).toNat ∧ (dev.maskSize c).toNat ≤ 8
  inside : ∀ c, (dev.fieldPosition c).toNat + (dev.maskSize c).toNat ≤ 32
  disjoint : ∀ c d i, dev.InField c i → dev.InField d i → c = d

def VbeDevice.OnlyFields (dev : VbeDevice) (p : BitVec 32) : Prop :=
  ∀ i, p.getLsbD i = true → ∃ c, dev.InField c i

def VbeDevice.fieldValue (dev : VbeDevice) (p : BitVec 32) (c : Channel) : Nat :=
  p.toNat / 2 ^ (dev.fieldPosition c).toNat % 2 ^ (dev.maskSize c).toNat

def VbeDevice.Exact (dev : VbeDevice) (p : BitVec 32) : Prop :=
  ∀ c, 2 ^ (dev.maskSize c).toNat - 1 ∣ 255 * dev.fieldValue p c

theorem scale_back_le (v M : Nat) : 255 * v / M * M / 255 ≤ v := by
  have hle : 255 * v / M * M ≤ 255 * v := Nat.div_mul_le_self _ _
  omega

theorem scale_back_iff {v M : Nat} (hM : 0 < M) (hle : M ≤ 255) : 255 * v / M * M / 255 = v ↔ M ∣ 255 * v := by
  have hsplit := Nat.div_add_mod' (255 * v) M
  have hrem := Nat.mod_lt (255 * v) hM
  constructor
  · intro hback
    apply Nat.dvd_of_mod_eq_zero
    omega
  · intro hdvd
    rw [Nat.div_mul_cancel hdvd, Nat.mul_div_cancel_left v (by decide)]

theorem mask_toNat {size : UInt8} (hhi : size.toNat ≤ 8) :
    (1#32 <<< size.toNat - 1#32).toNat = 2 ^ size.toNat - 1 := by
  have hpow : 2 ^ size.toNat ≤ 2 ^ 8 := Nat.pow_le_pow_right (by decide) hhi
  have hpos : 0 < 2 ^ size.toNat := Nat.two_pow_pos _
  simp only [BitVec.toNat_sub, BitVec.toNat_shiftLeft, BitVec.toNat_ofNat, Nat.shiftLeft_eq]
  omega

theorem size_ne_zero {size : UInt8} (h : 1 ≤ size.toNat) : size ≠ 0 := by
  rintro rfl
  exact absurd h (by decide)

theorem channelToField_toNat (c : BitVec 8) {size : UInt8} (hlo : 1 ≤ size.toNat) (hhi : size.toNat ≤ 8) :
    (channelToField c size).toNat = c.toNat * (2 ^ size.toNat - 1) / 255 := by
  have hpow : 2 ^ size.toNat ≤ 2 ^ 8 := Nat.pow_le_pow_right (by decide) hhi
  have hc := c.isLt
  have hmul : c.toNat * (2 ^ size.toNat - 1) ≤ 255 * 255 := Nat.mul_le_mul (by omega) (by omega)
  rw [channelToField, if_pos (size_ne_zero hlo), BitVec.toNat_udiv, BitVec.toNat_mul, mask_toNat hhi,
    BitVec.toNat_setWidth, BitVec.toNat_ofNat]
  rw [Nat.mod_eq_of_lt (show c.toNat < 2 ^ 32 by omega), Nat.mod_eq_of_lt (by omega)]

theorem fieldToChannel_toNat (p : BitVec 32) {size : UInt8} (pos : UInt8) (hlo : 1 ≤ size.toNat)
    (hhi : size.toNat ≤ 8) :
    (fieldToChannel p size pos).toNat =
      255 * (p.toNat / 2 ^ pos.toNat % 2 ^ size.toNat) / (2 ^ size.toNat - 1) := by
  have hpow : 2 ^ size.toNat ≤ 2 ^ 8 := Nat.pow_le_pow_right (by decide) hhi
  have htwo : 2 ^ 1 ≤ 2 ^ size.toNat := Nat.pow_le_pow_right (by decide) hlo
  have hmask : fieldMask size = 1#32 <<< size.toNat - 1#32 := if_pos (size_ne_zero hlo)
  have hM := mask_toNat hhi
  have hne : (1#32 <<< size.toNat - 1#32) ≠ 0#32 := by
    intro hzero
    rw [hzero] at hM
    simp only [BitVec.toNat_ofNat] at hM
    omega
  have hfield : (p >>> pos.toNat &&& (1#32 <<< size.toNat - 1#32)).toNat =
      p.toNat / 2 ^ pos.toNat % 2 ^ size.toNat := by
    rw [BitVec.toNat_and, hM, Nat.and_two_pow_sub_one_eq_mod, BitVec.toNat_ushiftRight,
      Nat.shiftRight_eq_div_pow]
  have hlt := Nat.mod_lt (p.toNat / 2 ^ pos.toNat) (show 0 < 2 ^ size.toNat by omega)
  have hquot : 255 * (p.toNat / 2 ^ pos.toNat % 2 ^ size.toNat) / (2 ^ size.toNat - 1) ≤ 255 := by
    apply Nat.div_le_of_le_mul
    rw [Nat.mul_comm]
    exact Nat.mul_le_mul_right _ (by omega)
  simp only [fieldToChannel, hmask, if_pos hne, BitVec.toNat_setWidth, BitVec.toNat_udiv, BitVec.toNat_mul,
    hfield, hM, BitVec.toNat_ofNat, Nat.reducePow, Nat.reduceMod]
  rw [Nat.mul_comm _ 255, Nat.mod_eq_of_lt (show 255 * _ < 4294967296 by omega), Nat.mod_eq_of_lt (by omega)]

variable {dev : VbeDevice}

def VbeDevice.packed (dev : VbeDevice) (color : VbeColor) (c : Channel) : Nat :=
  (channel color c).toNat * (2 ^ (dev.maskSize c).toNat - 1) / 255

theorem packed_lt (color : VbeColor) (c : Channel) :
    dev.packed color c < 2 ^ (dev.maskSize c).toNat := by
  have hpos : 0 < 2 ^ (dev.maskSize c).toNat := Nat.two_pow_pos _
  have hc := (channel color c).isLt
  have hle : (channel color c).toNat * (2 ^ (dev.maskSize c).toNat - 1) / 255 ≤
      2 ^ (dev.maskSize c).toNat - 1 :=
    Nat.div_le_of_le_mul (Nat.mul_le_mul_right _ (by omega))
  unfold VbeDevice.packed
  omega

theorem packed_bit (hf : Fields dev) (color : VbeColor) (c : Channel) (i : Nat) :
    (channelToField (channel color c) (dev.maskSize c) <<< (dev.fieldPosition c).toNat).getLsbD i = true ↔
      dev.InField c i ∧ (dev.packed color c).testBit (i - (dev.fieldPosition c).toNat) = true := by
  obtain ⟨hlo, hhi⟩ := hf.size c
  have hinside := hf.inside c
  have hvalue : (channelToField (channel color c) (dev.maskSize c)).toNat = dev.packed color c :=
    channelToField_toNat _ hlo hhi
  rw [BitVec.getLsbD_shiftLeft, ← BitVec.testBit_toNat, hvalue]
  unfold VbeDevice.InField
  constructor
  · simp only [Bool.and_eq_true, decide_eq_true_eq, Bool.not_eq_true', decide_eq_false_iff_not, not_lt]
    rintro ⟨⟨-, hle⟩, hbit⟩
    refine ⟨⟨hle, ?_⟩, hbit⟩
    by_contra hout
    -- the value has no bits above its field
    have hhigh : dev.packed color c < 2 ^ (i - (dev.fieldPosition c).toNat) :=
      lt_of_lt_of_le (packed_lt color c) (Nat.pow_le_pow_right (by decide) (by omega))
    rw [Nat.testBit_lt_two_pow hhigh] at hbit
    cases hbit
  · rintro ⟨⟨hle, hlt⟩, hbit⟩
    simp only [hbit, Bool.and_true, Bool.and_eq_true, decide_eq_true_eq, Bool.not_eq_true',
      decide_eq_false_iff_not, not_lt]
    omega

theorem vbeColorToPixel_bit (hf : Fields dev) (color : VbeColor) (i : Nat) :
    (vbeColorToPixel dev color).getLsbD i = true ↔
      ∃ c, dev.InField c i ∧ (dev.packed color c).testBit (i - (dev.fieldPosition c).toNat) = true := by
  have hred := packed_bit hf color .red i
  have hgreen := packed_bit hf color .green i
  have hblue := packed_bit hf color .blue i
  simp only [channel, VbeDevice.maskSize, VbeDevice.fieldPosition] at hred hgreen hblue
  simp only [vbeColorToPixel, BitVec.getLsbD_or, Bool.or_eq_true, BitVec.zero_shiftLeft, BitVec.getLsbD_zero,
    Bool.false_eq_true, or_false, hred, hgreen, hblue]
  constructor
  · rintro ((h | h) | h)
    · exact ⟨.red, h⟩
    · exact ⟨.green, h⟩
    · exact ⟨.blue, h⟩
  · rintro ⟨c, h⟩
    cases c with
    | red => exact Or.inl (Or.inl h)
    | green => exact Or.inl (Or.inr h)
    | blue => exact Or.inr h

theorem fieldValue_bit (p : BitVec 32) (c : Channel) (i : Nat) :
    (dev.fieldValue p c).testBit i = true ↔
      i < (dev.maskSize c).toNat ∧ p.getLsbD ((dev.fieldPosition c).toNat + i) = true := by
  rw [VbeDevice.fieldValue, ← Nat.shiftRight_eq_div_pow, Nat.testBit_mod_two_pow, Nat.testBit_shiftRight,
    ← BitVec.testBit_toNat]
  simp

/-- A pixel is packed from a colour exactly if its fields hold the scaled channels. -/
theorem vbeColorToPixel_eq_iff (hf : Fields dev) {p : BitVec 32} (hp : dev.OnlyFields p) (color : VbeColor) :
    vbeColorToPixel dev color = p ↔ ∀ c, dev.packed color c = dev.fieldValue p c := by
  constructor
  · rintro rfl c
    apply Nat.eq_of_testBit_eq
    intro i
    rw [Bool.eq_iff_iff, fieldValue_bit, vbeColorToPixel_bit hf]
    constructor
    · intro hbit
      have hlt : i < (dev.maskSize c).toNat := by
        by_contra hout
        have hhigh := lt_of_lt_of_le (packed_lt color c) (Nat.pow_le_pow_right (by decide) (not_lt.mp hout))
        rw [Nat.testBit_lt_two_pow hhigh] at hbit
        cases hbit
      refine ⟨hlt, c, ⟨by omega, by omega⟩, ?_⟩
      rwa [Nat.add_sub_cancel_left]
    · rintro ⟨hlt, d, hin, hbit⟩
      obtain rfl := hf.disjoint c d _ ⟨by omega, by omega⟩ hin
      rwa [Nat.add_sub_cancel_left] at hbit
  · intro hvalue
    apply BitVec.eq_of_getLsbD_eq
    intro i _
    rw [Bool.eq_iff_iff, vbeColorToPixel_bit hf]
    constructor
    · rintro ⟨c, ⟨hle, -⟩, hbit⟩
      rw [hvalue c, fieldValue_bit, Nat.add_sub_cancel' hle] at hbit
      exact hbit.2
    · intro hbit
      obtain ⟨c, hin⟩ := hp i hbit
      refine ⟨c, hin, ?_⟩
      rw [hvalue c, fieldValue_bit, Nat.add_sub_cancel' hin.1]
      exact ⟨Nat.sub_lt_left_of_lt_add hin.1 hin.2, hbit⟩

theorem packed_vbePixelToColor (hf : Fields dev) (p : BitVec 32) (c : Channel) :
    dev.packed (vbePixelToColor dev p) c =
      255 * dev.fieldValue p c / (2 ^ (dev.maskSize c).toNat - 1) * (2 ^ (dev.maskSize c).toNat - 1) / 255 := by
  obtain ⟨hlo, hhi⟩ := hf.size c
  have hchannel : channel (vbePixelToColor dev p) c =
      fieldToChannel p (dev.maskSize c) (dev.fieldPosition c) := by
    cases c with
    | red => rfl
    | green => rfl
    | blue => rfl
  rw [VbeDevice.packed, hchannel, fieldToChannel_toNat p _ hlo hhi, VbeDevice.fieldValue]

theorem mask_bounds (hf : Fields dev) (c : Channel) :
    0 < 2 ^ (dev.maskSize c).toNat - 1 ∧ 2 ^ (dev.maskSize c).toNat - 1 ≤ 255 := by
  obtain ⟨hlo, hhi⟩ := hf.size c
  have hpow : 2 ^ (dev.maskSize c).toNat ≤ 2 ^ 8 := Nat.pow_le_pow_right (by decide) hhi
  have htwo : 2 ^ 1 ≤ 2 ^ (dev.maskSize c).toNat := Nat.pow_le_pow_right (by decide) hlo
  omega

theorem round_trip_iff (hf : Fields dev) {p : BitVec 32} (hp : dev.OnlyFields p) :
    vbeColorToPixel dev (vbePixelToColor dev p) = p ↔ dev.Exact p := by
  rw [vbeColorToPixel_eq_iff hf hp]
  refine forall_congr' fun c => ?_
  obtain ⟨hpos, hle⟩ := mask_bounds hf c
  rw [packed_vbePixelToColor hf, scale_back_iff hpos hle]

theorem load_succ (fb : Mem) (a n : Nat) :
    load fb a (n + 1) = load fb a n ||| (fb (wrap (a + n))).setWidth 32 <<< (8 * n) := by
  rw [load, List.range_succ, List.foldl_append]
  rfl

theorem load_bit (fb : Mem) (a : Nat) {n : Nat} (hn : n ≤ 4) (i : Nat) :
    (load fb a n).getLsbD i = true ↔ i / 8 < n ∧ (fb (wrap (a + i / 8))).getLsbD (i % 8) = true := by
  induction n with
  | zero => simp [load]
  | succ n ih =>
      rw [load_succ, BitVec.getLsbD_or, Bool.or_eq_true, ih (by omega), BitVec.getLsbD_shiftLeft,
        BitVec.getLsbD_setWidth]
      simp only [Bool.and_eq_true, decide_eq_true_eq, Bool.not_eq_true', decide_eq_false_iff_not, not_lt]
      constructor
      · rintro (⟨hlt, hbit⟩ | ⟨⟨-, hle⟩, -, hbit⟩)
        · exact ⟨by omega, hbit⟩
        · have hbyte : i - 8 * n < 8 := BitVec.lt_of_getLsbD hbit
          have hdiv : i / 8 = n := by omega
          have hmod : i % 8 = i - 8 * n := by omega
          rw [hdiv, hmod]
          exact ⟨by omega, hbit⟩
      · rintro ⟨hlt, hbit⟩
        by_cases hlast : i / 8 = n
        · have hmod : i % 8 = i - 8 * n := by omega
          rw [hlast, hmod] at hbit
          exact Or.inr ⟨⟨by omega, by omega⟩, by omega, hbit⟩
        · exact Or.inl ⟨by omega, hbit⟩

theorem byteAt_bit (v : BitVec 32) (k j : Nat) :
    (byteAt v k).getLsbD j = (decide (j < 8) && v.getLsbD (8 * k + j)) := by
  rw [byteAt, BitVec.getLsbD_setWidth, BitVec.getLsbD_ushiftRight]

theorem byteAt_load (fb : Mem) {a n k : Nat} (hn : n ≤ 4) (ha : a + n ≤ 2 ^ 32) (hk : k < n) :
    byteAt (load fb a n) k = fb (a + k) := by
  apply BitVec.eq_of_getLsbD_eq
  intro j hj
  have hdiv : (8 * k + j) / 8 = k := by omega
  have hmod : (8 * k + j) % 8 = j := by omega
  rw [Bool.eq_iff_iff, byteAt_bit, Bool.and_eq_true, load_bit fb a hn, hdiv, hmod, wrap_of_lt (by omega)]
  simp only [hj, decide_true, true_and]
  exact and_iff_right hk

theorem store_eq_self_iff (fb : Mem) {a n : Nat} {v : BitVec 32} (hn : n ≤ 4) (ha : a + n ≤ 2 ^ 32)
    (hv : ∀ i, 8 * n ≤ i → v.getLsbD i = false) : store fb a n v = fb ↔ v = load fb a n := by
  constructor
  · intro hsame
    apply BitVec.eq_of_getLsbD_eq
    intro i _
    rw [Bool.eq_iff_iff, load_bit fb a hn]
    by_cases hlt : i / 8 < n
    · have hbyte := congrFun hsame (a + i / 8)
      rw [store_apply fb v ha, if_pos (by omega), Nat.add_sub_cancel_left] at hbyte
      rw [wrap_of_lt (by omega), ← hbyte, byteAt_bit, Nat.div_add_mod]
      simp [hlt, Nat.mod_lt]
    · rw [hv i (by omega)]
      simp [hlt]
  · rintro rfl
    funext x
    rw [store_apply fb _ ha]
    split_ifs with hx
    · rw [byteAt_load fb hn ha (by omega), Nat.add_sub_cancel' hx.1]
    · rfl

def VbeDevice.pixelAt (dev : VbeDevice) (fb : Mem) (x y : UInt16) : BitVec 32 :=
  load fb (pixelOffset dev x y) dev.pixelBytes

theorem pixelBytes_le (hm : Format dev) : dev.pixelBytes ≤ 4 := by
  unfold VbeDevice.pixelBytes
  rcases hm.depth with h | h | h | h | h <;> simp [h]

theorem pixelOffset_le (hm : Format dev) {x y : UInt16} (hx : x < dev.width) (hy : y < dev.height) :
    pixelOffset dev x y + dev.pixelBytes ≤ 2 ^ 32 := by
  have hle := cell_le hm (UInt16.lt_iff_toNat_lt.mp hx) (UInt16.lt_iff_toNat_lt.mp hy)
  have hlt := screen_lt dev
  have hcols : x.toNat * (dev.bpp.toNat / 8) ≤ x.toNat * dev.pixelBytes :=
    Nat.mul_le_mul_left _ (by unfold VbeDevice.pixelBytes; omega)
  have hwrap := wrap_le (y.toNat * dev.pitch.toNat + x.toNat * (dev.bpp.toNat / 8))
  unfold pixelOffset
  unfold VbeDevice.cell at hle
  omega

theorem round_trip_high (hf : Fields dev) {p : BitVec 32} {n : Nat} (hp : ∀ i, n ≤ i → p.getLsbD i = false)
    {i : Nat} (hi : n ≤ i) : (vbeColorToPixel dev (vbePixelToColor dev p)).getLsbD i = false := by
  rw [Bool.eq_false_iff]
  intro hbit
  obtain ⟨c, ⟨hle, -⟩, hbit⟩ := (vbeColorToPixel_bit hf _ i).mp hbit
  have hback : dev.packed (vbePixelToColor dev p) c ≤ dev.fieldValue p c := by
    rw [packed_vbePixelToColor hf]
    exact scale_back_le _ _
  have hsmall : p.toNat < 2 ^ n := Nat.lt_pow_two_of_testBit _ fun j hj => by
    rw [BitVec.testBit_toNat]
    exact hp j hj
  have hvalue : dev.fieldValue p c < 2 ^ (i - (dev.fieldPosition c).toNat) := by
    refine lt_of_le_of_lt (Nat.mod_le _ _) ?_
    rw [Nat.div_lt_iff_lt_mul (Nat.two_pow_pos _), ← Nat.pow_add, Nat.sub_add_cancel hle]
    exact lt_of_lt_of_le hsmall (Nat.pow_le_pow_right (by decide) hi)
  rw [Nat.testBit_lt_two_pow (lt_of_le_of_lt hback hvalue)] at hbit
  cases hbit

/-- A pixel read and written back leaves the framebuffer as it is exactly if no field leaves
a remainder. -/
theorem write_back_iff (hf : Fields dev) (hm : Format dev) (fb : Mem) {x y : UInt16} (hx : x < dev.width)
    (hy : y < dev.height) (hp : dev.OnlyFields (dev.pixelAt fb x y)) :
    (vbePutPixel dev fb x y (vbeGetPixel dev fb x y)).2 = fb ↔ dev.Exact (dev.pixelAt fb x y) := by
  have hhigh : ∀ i, 8 * dev.pixelBytes ≤ i → (dev.pixelAt fb x y).getLsbD i = false := by
    intro i hi
    rw [Bool.eq_false_iff]
    intro hbit
    have hlt := ((load_bit fb _ (pixelBytes_le hm) i).mp hbit).1
    omega
  rw [vbePutPixel_eq hm.toReady fb hx hy, vbeGetPixel_eq hm.toReady fb hx hy, ← round_trip_iff hf hp]
  exact store_eq_self_iff fb (pixelBytes_le hm) (pixelOffset_le hm hx hy) fun i hi => round_trip_high hf hhigh hi

/-- Sizes whose fields always scale to a byte without a remainder. -/
def ExactSize (size : Nat) : Prop := size = 1 ∨ size = 2 ∨ size = 4 ∨ size = 8

theorem exactSize_iff {size : Nat} (hlo : 1 ≤ size) (hhi : size ≤ 8) : ExactSize size ↔ 2 ^ size - 1 ∣ 255 := by
  unfold ExactSize
  interval_cases size <;> decide

theorem fieldValue_one (hf : Fields dev) (c d : Channel) :
    dev.fieldValue (BitVec.twoPow 32 (dev.fieldPosition c).toNat) d = if d = c then 1 else 0 := by
  obtain ⟨hlo, hhi⟩ := hf.size c
  have hinside := hf.inside c
  apply Nat.eq_of_testBit_eq
  intro i
  rw [Bool.eq_iff_iff, fieldValue_bit, BitVec.getLsbD_twoPow]
  simp only [Bool.and_eq_true, decide_eq_true_eq]
  split_ifs with hdc
  · subst hdc
    rw [Nat.testBit_one_eq_true_iff_self_eq_zero]
    omega
  · rw [Nat.zero_testBit]
    simp only [Bool.false_eq_true, iff_false]
    rintro ⟨hlt, -, heq⟩
    exact hdc (hf.disjoint d c ((dev.fieldPosition c).toNat) ⟨by omega, by omega⟩ ⟨le_rfl, by omega⟩)

theorem onlyFields_one (hf : Fields dev) (c : Channel) :
    dev.OnlyFields (BitVec.twoPow 32 (dev.fieldPosition c).toNat) := by
  intro i hbit
  rw [BitVec.getLsbD_twoPow] at hbit
  simp only [Bool.and_eq_true, decide_eq_true_eq] at hbit
  obtain ⟨-, rfl⟩ := hbit
  exact ⟨c, le_rfl, by have hsize := hf.size c; omega⟩

/-- A pixel survives, both as a value and in the framebuffer, exactly if no field leaves a
remainder; all pixels of a format survive exactly if its fields have 1, 2, 4 or 8 bits. -/
theorem vbe_round_trip_iff (hf : Fields dev) :
    (∀ p, dev.OnlyFields p → (vbeColorToPixel dev (vbePixelToColor dev p) = p ↔ dev.Exact p)) ∧
    (Format dev → ∀ fb x y, x < dev.width → y < dev.height → dev.OnlyFields (dev.pixelAt fb x y) →
      ((vbePutPixel dev fb x y (vbeGetPixel dev fb x y)).2 = fb ↔ dev.Exact (dev.pixelAt fb x y))) ∧
    ((∀ p, dev.OnlyFields p → vbeColorToPixel dev (vbePixelToColor dev p) = p) ↔
      ∀ c, ExactSize (dev.maskSize c).toNat) := by
  refine ⟨fun p hp => round_trip_iff hf hp, fun hm fb x y hx hy hp => write_back_iff hf hm fb hx hy hp, ?_⟩
  constructor
  · intro hall c
    obtain ⟨hlo, hhi⟩ := hf.size c
    have hexact := (round_trip_iff hf (onlyFields_one hf c)).mp (hall _ (onlyFields_one hf c)) c
    rw [fieldValue_one hf, if_pos rfl] at hexact
    exact (exactSize_iff hlo hhi).mpr hexact
  · intro hsizes p hp
    refine (round_trip_iff hf hp).mpr fun c => ?_
    obtain ⟨hlo, hhi⟩ := hf.size c
    exact Dvd.dvd.mul_right ((exactSize_iff hlo hhi).mp (hsizes c)) _

def trueColor : VbeDevice :=
  { screenOf 32 2560 with
    redMaskSize := 8
    redFieldPosition := 16
    greenMaskSize := 8
    greenFieldPosition := 8
    blueMaskSize := 8 }

theorem trueColor_fields : Fields trueColor :=
  ⟨by rintro (_ | _ | _) <;> decide, by rintro (_ | _ | _) <;> decide, by
    rintro (_ | _ | _) (_ | _ | _) i ⟨hlo, hhi⟩ ⟨hlo', hhi'⟩ <;>
      simp_all [trueColor, VbeDevice.maskSize, VbeDevice.fieldPosition, screenOf] <;> omega⟩

theorem vbe_round_trip_trueColor :
    Fields trueColor ∧ ∀ p, trueColor.OnlyFields p →
      vbeColorToPixel trueColor (vbePixelToColor trueColor p) = p :=
  ⟨trueColor_fields, (vbe_round_trip_iff trueColor_fields).2.2.mpr
    (by rintro (_ | _ | _) <;> exact Or.inr (Or.inr (Or.inr rfl)))⟩

/-- With 5 bits the darkest blue becomes black. -/
theorem vbe_round_trip_darkens :
    Fields (screenOf 16 1280) ∧ (screenOf 16 1280).OnlyFields 1#32 ∧
    vbeColorToPixel (screenOf 16 1280) (vbePixelToColor (screenOf 16 1280) 1#32) = 0#32 ∧
    (vbePutPixel (screenOf 16 1280) (fun a => if a = 0 then 1#8 else 0#8) 0 0
      (vbeGetPixel (screenOf 16 1280) (fun a => if a = 0 then 1#8 else 0#8) 0 0)).2 0 = 0#8 := by
  have hf : Fields (screenOf 16 1280) :=
    ⟨by rintro (_ | _ | _) <;> decide, by rintro (_ | _ | _) <;> decide, by
      rintro (_ | _ | _) (_ | _ | _) i ⟨hlo, hhi⟩ ⟨hlo', hhi'⟩ <;>
        simp_all [VbeDevice.maskSize, VbeDevice.fieldPosition, screenOf] <;> omega⟩
  exact ⟨hf, onlyFields_one hf .blue, by decide, by decide⟩

end Frostix.Drivers
