import Frostix.Drivers.VbeColor

/-!
Copying a rectangle of the screen onto another one. The copy runs in place from the top
left to the bottom right; it goes wrong if it reads a pixel that it has already written
and that held something else before. -/
namespace Frostix.Drivers

open Machine32 ByteMemory CellStores Loop

variable {dev : VbeDevice}

/-- The two rectangles that `vbe_blit` takes. -/
structure Accepts (dev : VbeDevice) (dstX dstY srcX srcY width height : UInt16) : Prop where
  dstColumns : dstX.toNat + width.toNat ≤ dev.width.toNat
  dstRows : dstY.toNat + height.toNat ≤ dev.height.toNat
  srcColumns : srcX.toNat + width.toNat ≤ dev.width.toNat
  srcRows : srcY.toNat + height.toNat ≤ dev.height.toNat

/-- The pixel in a row and a column of a rectangle, as the offset of its first byte. -/
def VbeDevice.pixelIn (dev : VbeDevice) (x y : UInt16) (p : Nat × Nat) : Nat :=
  dev.cell (x.toNat + p.2) (y.toNat + p.1)

def VbeDevice.bytesAt (dev : VbeDevice) (fb : Mem) (o : Nat) : List (BitVec 8) :=
  (List.range dev.pixelBytes).map fun k => fb (o + k)

/-- Every pixel of the destination is what the source pixel was, and no other byte changed. -/
structure Moves (dev : VbeDevice) (fb fb' : Mem) (dstX dstY srcX srcY width height : UInt16) : Prop where
  moved : ∀ p ∈ rowMajor height.toNat width.toNat,
    dev.bytesAt fb' (dev.pixelIn dstX dstY p) = dev.bytesAt fb (dev.pixelIn srcX srcY p)
  kept : ∀ o, (∀ p ∈ rowMajor height.toNat width.toNat, ∀ k < dev.pixelBytes, o ≠ dev.pixelIn dstX dstY p + k) →
    fb' o = fb o

def VbeDevice.byteCopies (dev : VbeDevice) (dst src : Nat) : List (Nat × Nat) :=
  (List.range dev.pixelBytes).map fun k => (dst + k, src + k)

theorem store_load_apply (fb : Mem) {dst src n : Nat} (hn : n ≤ 4) (hdst : dst + n ≤ 2 ^ 32)
    (hsrc : src + n ≤ 2 ^ 32) (x : Nat) :
    store fb dst n (load fb src n) x = if dst ≤ x ∧ x < dst + n then fb (src + (x - dst)) else fb x := by
  rw [store_apply fb _ hdst]
  split_ifs with hx
  · exact byteAt_load fb hn hsrc (by omega)
  · rfl

theorem store_load_eq_copyCells (fb : Mem) {dst src n : Nat} (hn : n ≤ 4) (hdst : dst + n ≤ 2 ^ 32)
    (hsrc : src + n ≤ 2 ^ 32) (hapart : dst = src ∨ dst + n ≤ src ∨ src + n ≤ dst) :
    store fb dst n (load fb src n) = copyCells fb ((List.range n).map fun k => (dst + k, src + k)) := by
  have hword : Simultaneous fb (store fb dst n (load fb src n))
      ((List.range n).map fun k => (dst + k, src + k)) := by
    constructor
    · intro p hp
      obtain ⟨k, hk, rfl⟩ := List.mem_map.mp hp
      rw [List.mem_range] at hk
      rw [store_load_apply fb hn hdst hsrc, if_pos (by omega), Nat.add_sub_cancel_left]
    · intro x hx
      rw [store_load_apply fb hn hdst hsrc, if_neg]
      rintro ⟨hlo, hhi⟩
      exact hx (List.mem_map.mpr ⟨(x, src + (x - dst)), List.mem_map.mpr
        ⟨x - dst, List.mem_range.mpr (by omega), by rw [Nat.add_sub_cancel' hlo]⟩, rfl⟩)
  refine hword.unique ((copyCells_simultaneous_iff fb ?_).mpr ?_)
  · rw [List.map_map]
    exact List.nodup_range.map fun k k' h => Nat.add_left_cancel h
  · rw [List.pairwise_map]
    refine List.Pairwise.imp_of_mem ?_ List.pairwise_lt_range
    intro k k' hk hk' hlt heq
    rw [List.mem_range] at hk hk'
    dsimp only at heq
    omega

theorem byteCopies_three (hm : dev.pixelBytes = 3) (dst src : Nat) :
    dev.byteCopies dst src = [(dst + 0, src + 0), (dst + 1, src + 1), (dst + 2, src + 2)] := by
  rw [VbeDevice.byteCopies, hm]
  rfl

/-- At every depth but 15 bits a pixel is copied byte by byte. -/
theorem blitPixel_eq (hm : Format dev) (hbpp : dev.bpp ≠ 15) (fb : Mem) {dst src : Nat} (col : Nat)
    (hdst : dst + col * dev.pixelBytes + dev.pixelBytes ≤ 2 ^ 32)
    (hsrc : src + col * dev.pixelBytes + dev.pixelBytes ≤ 2 ^ 32)
    (hapart : dst + col * dev.pixelBytes = src + col * dev.pixelBytes ∨
      dst + col * dev.pixelBytes + dev.pixelBytes ≤ src + col * dev.pixelBytes ∨
      src + col * dev.pixelBytes + dev.pixelBytes ≤ dst + col * dev.pixelBytes) :
    blitPixel dev fb dst src col =
      some (copyCells fb (dev.byteCopies (dst + col * dev.pixelBytes) (src + col * dev.pixelBytes))) := by
  have hword := store_load_eq_copyCells fb (pixelBytes_le hm) hdst hsrc hapart
  rw [← VbeDevice.byteCopies] at hword
  rcases hm.depth with h | h | h | h | h
  · have hbytes : dev.pixelBytes = 1 := by simp [VbeDevice.pixelBytes, h]
    rw [← hword, hbytes]
    simp [blitPixel, h]
  · exact absurd h hbpp
  · have hbytes : dev.pixelBytes = 2 := by simp [VbeDevice.pixelBytes, h]
    rw [← hword, hbytes]
    simp [blitPixel, h, Nat.mul_comm]
  · have hbytes : dev.pixelBytes = 3 := by simp [VbeDevice.pixelBytes, h]
    have hbyte : ∀ (fb : Mem) (k : Nat), k < 3 →
        store fb (dst + (col * 3 + k)) 1 (load fb (src + (col * 3 + k)) 1) =
          copyCells fb [(dst + col * 3 + k, src + col * 3 + k)] := by
      intro fb k hk
      rw [hbytes] at hdst hsrc
      have hone := @store_load_eq_copyCells fb (dst + (col * 3 + k)) (src + (col * 3 + k)) 1 (by decide)
        (by omega) (by omega) (by omega)
      simpa [Nat.add_assoc] using hone
    have hthree : blitPixel dev fb dst src col = some (copyCells (copyCells (copyCells fb
        [(dst + col * 3 + 0, src + col * 3 + 0)]) [(dst + col * 3 + 1, src + col * 3 + 1)])
        [(dst + col * 3 + 2, src + col * 3 + 2)]) := by
      rw [← hbyte _ 0 (by decide), ← hbyte _ 1 (by decide), ← hbyte _ 2 (by decide)]
      simp [blitPixel, h]
    rw [hthree, byteCopies_three hbytes, hbytes]
    rfl
  · have hbytes : dev.pixelBytes = 4 := by simp [VbeDevice.pixelBytes, h]
    rw [← hword, hbytes]
    simp [blitPixel, h, Nat.mul_comm]

theorem cell_apart (hm : Format dev) {x y x' y' : Nat} (hx : x < dev.width.toNat) (hx' : x' < dev.width.toNat) :
    dev.cell x y = dev.cell x' y' ∨ dev.cell x y + dev.pixelBytes ≤ dev.cell x' y' ∨
      dev.cell x' y' + dev.pixelBytes ≤ dev.cell x y := by
  by_contra hclose
  rw [not_or, not_or, not_le, not_le] at hclose
  obtain ⟨hne, hlt, hlt'⟩ := hclose
  have hpos := pixelBytes_pos hm
  rcases Nat.lt_or_gt_of_ne hne with hless | hmore
  · obtain ⟨-, -, hk⟩ := @cell_inj dev hm x y (dev.cell x' y' - dev.cell x y) x' y' 0 hx hx'
      (by omega) hpos (by omega)
    omega
  · obtain ⟨-, -, hk⟩ := @cell_inj dev hm x y 0 x' y' (dev.cell x y - dev.cell x' y') hx hx' hpos
      (by omega) (by omega)
    omega

section Rectangles

variable {dstX dstY srcX srcY width height : UInt16}

/-- All copies of `vbe_blit`, in their order. -/
def VbeDevice.blitCopies (dev : VbeDevice) (dstX dstY srcX srcY width height : UInt16) : List (Nat × Nat) :=
  (rowMajor height.toNat width.toNat).flatMap fun p =>
    dev.byteCopies (dev.pixelIn dstX dstY p) (dev.pixelIn srcX srcY p)

theorem vbeBlit_eq (hm : Format dev) (hbpp : dev.bpp ≠ 15) (ha : Accepts dev dstX dstY srcX srcY width height)
    (fb : Mem) :
    vbeBlit dev fb dstX dstY srcX srcY width height =
      (.ok, copyCells fb (dev.blitCopies dstX dstY srcX srcY width height)) := by
  have hdc := ha.dstColumns
  have hdr := ha.dstRows
  have hsc := ha.srcColumns
  have hsr := ha.srcRows
  have hscreen := screen_lt dev
  have hbytes : dev.bpp.toNat / 8 = dev.pixelBytes := by
    unfold VbeDevice.pixelBytes
    rcases hm.depth with h | h | h | h | h
    · simp [h]
    · exact absurd h hbpp
    · simp [h]
    · simp [h]
    · simp [h]
  -- the line of a row is where its first pixel is, and pixels follow at their distance
  have hline : ∀ x y j : Nat, x < dev.width.toNat → y + j < dev.height.toNat →
      wrap ((y + j) * dev.pitch.toNat + x * dev.pixelBytes) = dev.cell x (y + j) := by
    intro x y j hx hy
    have hle := cell_le hm hx hy
    exact wrap_of_lt (by unfold VbeDevice.cell at hle; omega)
  have hcell : ∀ x y i : Nat, dev.cell x y + i * dev.pixelBytes = dev.cell (x + i) y := by
    intro x y i
    simp only [VbeDevice.cell, Nat.add_mul, Nat.add_assoc]
  have hpixel : ∀ j ∈ List.range height.toNat, ∀ fb : Mem,
      (List.range width.toNat).foldlM (fun fb col => blitPixel dev fb
        (wrap ((dstY.toNat + j) * dev.pitch.toNat + dstX.toNat * dev.pixelBytes))
        (wrap ((srcY.toNat + j) * dev.pitch.toNat + srcX.toNat * dev.pixelBytes)) col) fb =
      some ((List.range width.toNat).foldl (fun fb i =>
        copyCells fb (dev.byteCopies (dev.pixelIn dstX dstY (j, i)) (dev.pixelIn srcX srcY (j, i)))) fb) := by
    intro j hj fb
    rw [List.mem_range] at hj
    refine Loop.foldlM_eq_some (fun i hi fb => ?_) fb
    rw [List.mem_range] at hi
    have hdst := cell_le hm (show dstX.toNat + i < dev.width.toNat by omega)
      (show dstY.toNat + j < dev.height.toNat by omega)
    have hsrc := cell_le hm (show srcX.toNat + i < dev.width.toNat by omega)
      (show srcY.toNat + j < dev.height.toNat by omega)
    rw [hline _ _ _ (by omega) (by omega), hline _ _ _ (by omega) (by omega),
      blitPixel_eq hm hbpp fb i (by rw [hcell]; omega) (by rw [hcell]; omega)
        (by rw [hcell, hcell]; exact cell_apart hm (by omega) (by omega)), hcell, hcell]
    rfl
  have hguard : ¬ (dev.width.toNat < dstX.toNat + width.toNat ∨ dev.height.toNat < dstY.toNat + height.toNat ∨
      dev.width.toNat < srcX.toNat + width.toNat ∨ dev.height.toNat < srcY.toNat + height.toNat) := by omega
  unfold vbeBlit
  rw [if_neg (by simp [hm.initialized]), if_neg hguard]
  dsimp only
  rw [hbytes, Loop.foldlM_eq_some hpixel fb, VbeDevice.blitCopies, copyCells_flatMap, foldl_rowMajor]

theorem bytesAt_eq_iff {fb fb' : Mem} {o o' : Nat} :
    dev.bytesAt fb o = dev.bytesAt fb' o' ↔ ∀ k < dev.pixelBytes, fb (o + k) = fb' (o' + k) := by
  simp only [VbeDevice.bytesAt, List.map_inj_left, List.mem_range]

theorem simultaneous_blitCopies_iff {fb fb' : Mem} :
    Simultaneous fb fb' (dev.blitCopies dstX dstY srcX srcY width height) ↔
      Moves dev fb fb' dstX dstY srcX srcY width height := by
  constructor
  · intro h
    refine ⟨fun p hp => bytesAt_eq_iff.mpr fun k hk => ?_, fun o ho => h.kept o ?_⟩
    · exact h.copied _ (List.mem_flatMap.mpr ⟨p, hp, List.mem_map.mpr ⟨k, List.mem_range.mpr hk, rfl⟩⟩)
    · intro hmem
      obtain ⟨c, hc, rfl⟩ := List.mem_map.mp hmem
      obtain ⟨p, hp, hc⟩ := List.mem_flatMap.mp hc
      obtain ⟨k, hk, rfl⟩ := List.mem_map.mp hc
      exact ho p hp k (List.mem_range.mp hk) rfl
  · intro h
    refine ⟨fun c hc => ?_, fun o ho => h.kept o ?_⟩
    · obtain ⟨p, hp, hc⟩ := List.mem_flatMap.mp hc
      obtain ⟨k, hk, rfl⟩ := List.mem_map.mp hc
      exact bytesAt_eq_iff.mp (h.moved p hp) k (List.mem_range.mp hk)
    · rintro p hp k hk rfl
      exact ho (List.mem_map.mpr ⟨_, List.mem_flatMap.mpr ⟨p, hp, List.mem_map.mpr ⟨k, List.mem_range.mpr hk, rfl⟩⟩,
        rfl⟩)

theorem before_asymm (p q : Nat × Nat) (h : Before p q) : ¬ Before q p := by
  unfold Before at *
  omega

theorem blitCopies_nodup (hm : Format dev) (ha : Accepts dev dstX dstY srcX srcY width height) :
    ((dev.blitCopies dstX dstY srcX srcY width height).map Prod.fst).Nodup := by
  have hdc := ha.dstColumns
  rw [List.Nodup, List.pairwise_map, VbeDevice.blitCopies, List.pairwise_flatMap]
  constructor
  · intro p _
    rw [VbeDevice.byteCopies, List.pairwise_map]
    refine List.pairwise_lt_range.imp fun hlt heq => ?_
    dsimp only at heq
    omega
  · refine List.Pairwise.imp_of_mem ?_ (rowMajor_pairwise _ _)
    intro p q hp hq hbefore c hc d hd heq
    obtain ⟨k, hk, rfl⟩ := List.mem_map.mp hc
    obtain ⟨k', hk', rfl⟩ := List.mem_map.mp hd
    obtain ⟨-, hp⟩ := mem_rowMajor.mp hp
    obtain ⟨-, hq⟩ := mem_rowMajor.mp hq
    rw [List.mem_range] at hk hk'
    obtain ⟨hcol, hrow, -⟩ := cell_inj hm (show dstX.toNat + p.2 < dev.width.toNat by omega)
      (show dstX.toNat + q.2 < dev.width.toNat by omega) hk hk' heq
    unfold Before at hbefore
    omega

/-- The pixel that was copied in one round is where another round reads. -/
def Hits (dstX dstY srcX srcY : UInt16) (p q : Nat × Nat) : Prop :=
  dstX.toNat + p.2 = srcX.toNat + q.2 ∧ dstY.toNat + p.1 = srcY.toNat + q.1

/-- No source pixel is read after another pixel was written there. -/
def Unharmed (dev : VbeDevice) (fb : Mem) (dstX dstY srcX srcY width height : UInt16) : Prop :=
  ∀ p ∈ rowMajor height.toNat width.toNat, ∀ q ∈ rowMajor height.toNat width.toNat, Before p q →
    Hits dstX dstY srcX srcY p q →
    dev.bytesAt fb (dev.pixelIn srcX srcY p) = dev.bytesAt fb (dev.pixelIn srcX srcY q)

theorem blitCopies_pairwise_iff (hm : Format dev) (ha : Accepts dev dstX dstY srcX srcY width height) (fb : Mem) :
    ((dev.blitCopies dstX dstY srcX srcY width height).Pairwise fun c d => c.1 = d.2 → fb c.2 = fb d.2) ↔
      Unharmed dev fb dstX dstY srcX srcY width height := by
  have hdc := ha.dstColumns
  have hsc := ha.srcColumns
  -- the bytes of one pixel do not get into each other's way
  have hwithin : ∀ p ∈ rowMajor height.toNat width.toNat,
      (dev.byteCopies (dev.pixelIn dstX dstY p) (dev.pixelIn srcX srcY p)).Pairwise
        fun c d => c.1 = d.2 → fb c.2 = fb d.2 := by
    intro p hp
    obtain ⟨-, hp⟩ := mem_rowMajor.mp hp
    rw [VbeDevice.byteCopies, List.pairwise_map]
    refine List.Pairwise.imp_of_mem ?_ List.pairwise_lt_range
    intro k k' hk hk' hlt heq
    rw [List.mem_range] at hk hk'
    obtain ⟨-, -, hsame⟩ := cell_inj hm (show dstX.toNat + p.2 < dev.width.toNat by omega)
      (show srcX.toNat + p.2 < dev.width.toNat by omega) hk hk' heq
    omega
  rw [VbeDevice.blitCopies, List.pairwise_flatMap, and_iff_right hwithin,
    pairwise_iff_of_sorted before_asymm (rowMajor_pairwise _ _)]
  unfold Unharmed
  refine forall₂_congr fun p hp => forall₂_congr fun q hq => forall_congr' fun _ => ?_
  obtain ⟨-, hp⟩ := mem_rowMajor.mp hp
  obtain ⟨-, hq⟩ := mem_rowMajor.mp hq
  rw [bytesAt_eq_iff]
  constructor
  · rintro h ⟨hcol, hrow⟩ k hk
    refine h (_, _) (List.mem_map.mpr ⟨k, List.mem_range.mpr hk, rfl⟩) (_, _)
      (List.mem_map.mpr ⟨k, List.mem_range.mpr hk, rfl⟩) ?_
    simp only [VbeDevice.pixelIn, hcol, hrow]
  · intro h c hc d hd heq
    obtain ⟨k, hk, rfl⟩ := List.mem_map.mp hc
    obtain ⟨k', hk', rfl⟩ := List.mem_map.mp hd
    rw [List.mem_range] at hk hk'
    obtain ⟨hcol, hrow, rfl⟩ := cell_inj hm (show dstX.toNat + p.2 < dev.width.toNat by omega)
      (show srcX.toNat + q.2 < dev.width.toNat by omega) hk hk' heq
    exact h ⟨hcol, hrow⟩ k hk

/-- The rectangles are apart, or the destination comes before the source: it is higher up,
or in the same rows and not further to the right. -/
def Safe (dstX dstY srcX srcY width height : UInt16) : Prop :=
  (dstX.toNat + width.toNat ≤ srcX.toNat ∨ srcX.toNat + width.toNat ≤ dstX.toNat ∨
    dstY.toNat + height.toNat ≤ srcY.toNat ∨ srcY.toNat + height.toNat ≤ dstY.toNat) ∨
  dstY < srcY ∨ dstY = srcY ∧ dstX ≤ srcX

theorem safe_iff (hm : Format dev) (ha : Accepts dev dstX dstY srcX srcY width height) :
    (∀ fb, Unharmed dev fb dstX dstY srcX srcY width height) ↔ Safe dstX dstY srcX srcY width height := by
  have hsc := ha.srcColumns
  unfold Safe
  rw [UInt16.lt_iff_toNat_lt, ← UInt16.toNat_inj, UInt16.le_iff_toNat_le]
  constructor
  · intro h
    by_contra hover
    -- the first round whose pixel is read again, and the round that reads it
    let p : Nat × Nat := (0, srcX.toNat - dstX.toNat)
    let q : Nat × Nat := (dstY.toNat - srcY.toNat, dstX.toNat - srcX.toNat)
    have hp : p ∈ rowMajor height.toNat width.toNat :=
      mem_rowMajor.mpr ⟨by dsimp only [p]; omega, by dsimp only [p]; omega⟩
    have hq : q ∈ rowMajor height.toNat width.toNat :=
      mem_rowMajor.mpr ⟨by dsimp only [q]; omega, by dsimp only [q]; omega⟩
    have hbefore : Before p q := by unfold Before; dsimp only [p, q]; omega
    have hhits : Hits dstX dstY srcX srcY p q := by constructor <;> dsimp only [p, q] <;> omega
    have hpos := pixelBytes_pos hm
    have hbytes := bytesAt_eq_iff.mp (h (fun o => if o = dev.pixelIn srcX srcY p then 1#8 else 0#8) p hp q hq hbefore
      hhits) 0 hpos
    simp only [Nat.add_zero, if_true] at hbytes
    split_ifs at hbytes with hsame
    · obtain ⟨hcol, hrow, -⟩ := cell_inj hm (show srcX.toNat + q.2 < dev.width.toNat by have := (mem_rowMajor.mp hq).2; omega)
        (show srcX.toNat + p.2 < dev.width.toNat by have := (mem_rowMajor.mp hp).2; omega) hpos hpos
        (congrArg (· + 0) hsame)
      unfold Before at hbefore
      omega
    · exact absurd hbytes (by decide)
  · intro hsafe fb p hp q hq hbefore hhits
    obtain ⟨hp₁, hp₂⟩ := mem_rowMajor.mp hp
    obtain ⟨hq₁, hq₂⟩ := mem_rowMajor.mp hq
    unfold Before at hbefore
    unfold Hits at hhits
    omega

theorem moves_iff_unharmed (hm : Format dev) (hbpp : dev.bpp ≠ 15)
    (ha : Accepts dev dstX dstY srcX srcY width height)
    (fb : Mem) :
    Moves dev fb (vbeBlit dev fb dstX dstY srcX srcY width height).2 dstX dstY srcX srcY width height ↔
      Unharmed dev fb dstX dstY srcX srcY width height := by
  rw [vbeBlit_eq hm hbpp ha, ← simultaneous_blitCopies_iff, ← blitCopies_pairwise_iff hm ha]
  exact copyCells_simultaneous_iff fb (blitCopies_nodup hm ha)

/-- An accepted copy succeeds. It moves the rectangle exactly if no source pixel is read
after another value was written there, and whatever the framebuffer holds exactly if the
rectangles are apart or the destination comes first. -/
theorem vbe_blit_iff (hm : Format dev) (hbpp : dev.bpp ≠ 15) (ha : Accepts dev dstX dstY srcX srcY width height) :
    (∀ fb, (vbeBlit dev fb dstX dstY srcX srcY width height).1 = .ok) ∧
    (∀ fb, Moves dev fb (vbeBlit dev fb dstX dstY srcX srcY width height).2 dstX dstY srcX srcY width height ↔
      Unharmed dev fb dstX dstY srcX srcY width height) ∧
    ((∀ fb, Moves dev fb (vbeBlit dev fb dstX dstY srcX srcY width height).2 dstX dstY srcX srcY width height) ↔
      Safe dstX dstY srcX srcY width height) := by
  have hmoves := moves_iff_unharmed hm hbpp ha
  exact ⟨fun fb => by rw [vbeBlit_eq hm hbpp ha], hmoves, (forall_congr' hmoves).trans (safe_iff hm ha)⟩

theorem vbe_blit_up :
    Moves (screenOf 16 1280) (fun a => BitVec.ofNat 8 a)
      (vbeBlit (screenOf 16 1280) (fun a => BitVec.ofNat 8 a) 0 0 0 16 640 464).2 0 0 0 16 640 464 :=
  (vbe_blit_iff ⟨⟨rfl, by decide⟩, by decide⟩ (by decide)
    ⟨by decide, by decide, by decide, by decide⟩).2.2.mpr (Or.inr (Or.inl (by decide))) _

/-- Two pixels copied one column to the right: the second one is read when the first one
has already been written there. -/
theorem vbe_blit_smears :
    Format (screenOf 8 640) ∧ Accepts (screenOf 8 640) 1 0 0 0 2 1 ∧
    (vbeBlit (screenOf 8 640) (fun a => if a = 0 then 1#8 else 2#8) 1 0 0 0 2 1).1 = .ok ∧
    (vbeBlit (screenOf 8 640) (fun a => if a = 0 then 1#8 else 2#8) 1 0 0 0 2 1).2 2 = 1#8 ∧
    ¬ Moves (screenOf 8 640) (fun a => if a = 0 then 1#8 else 2#8)
      (vbeBlit (screenOf 8 640) (fun a => if a = 0 then 1#8 else 2#8) 1 0 0 0 2 1).2 1 0 0 0 2 1 := by
  refine ⟨⟨⟨rfl, by decide⟩, by decide⟩, ⟨by decide, by decide, by decide, by decide⟩, by decide, by decide, ?_⟩
  intro h
  exact absurd (h.moved (0, 1) (by decide)) (by decide)

end Rectangles

/-- `vbe_scroll` moves the screen up by a line of text and fills the bottom. -/
theorem vbeScroll_spec (hm : Format dev) (hbpp : dev.bpp ≠ 15) (hn : dev.NotNull) (fb : Mem) {lineH : UInt16}
    (hpos : lineH ≠ 0) (hline : lineH < dev.height) (hwidth : dev.width ≠ 0) (bgColor : Tty.VbeColor) :
    (vbeScroll dev fb lineH bgColor).1 = .ok ∧
    (∀ x < dev.width.toNat, ∀ y < dev.height.toNat - lineH.toNat,
      dev.bytesAt (vbeScroll dev fb lineH bgColor).2 (dev.cell x y) =
        dev.bytesAt fb (dev.cell x (lineH.toNat + y))) ∧
    ∀ x < dev.width.toNat, ∀ y < lineH.toNat, ∀ o ∈ dev.cellBytes x (dev.height.toNat - lineH.toNat + y),
      (vbeScroll dev fb lineH bgColor).2 o = dev.picture (vbeColorToPixel dev bgColor) o := by
  have hlt := UInt16.lt_iff_toNat_lt.mp hline
  have hsub : (dev.height - lineH).toNat = dev.height.toNat - lineH.toNat :=
    UInt16.toNat_sub_of_le _ _ (UInt16.le_of_lt hline)
  have hs : dev.Spaced := (spaced_iff hm).mpr fun h => absurd h hbpp
  have ha : Accepts dev 0 0 0 lineH dev.width (dev.height - lineH) := by
    constructor <;> simp only [hsub, UInt16.toNat_zero] <;> omega
  have hin : InScreen dev 0 (dev.height - lineH) dev.width lineH :=
    ⟨by simp, by rw [hsub]; omega, hwidth, hpos⟩
  have hsafe : Safe 0 0 0 lineH dev.width (dev.height - lineH) := by
    refine Or.inr (Or.inl (UInt16.lt_iff_toNat_lt.mpr (Nat.pos_of_ne_zero fun hz => hpos ?_)))
    exact UInt16.toNat_inj.mp hz
  have hmoves := (moves_iff_unharmed hm hbpp ha fb).mpr ((safe_iff hm ha).mpr hsafe fb)
  have hpaints := vbeFillRect_paints hm hs hn hin bgColor
  have hscroll : vbeScroll dev fb lineH bgColor = (.ok, (vbeFillRect dev
      (vbeBlit dev fb 0 0 0 lineH dev.width (dev.height - lineH)).2 0 (dev.height - lineH) dev.width lineH
      bgColor).2) := by
    unfold vbeScroll
    rw [if_neg (by simp [hm.initialized]), if_neg (UInt16.not_le.mpr hline)]
  rw [hscroll]
  refine ⟨rfl, fun x hx y hy => ?_, fun x hx y hy o ho => ?_⟩
  · -- the fill below does not touch what was moved
    have hmoved := hmoves.moved (y, x) (mem_rowMajor.mpr ⟨by rw [hsub]; exact hy, hx⟩)
    simp only [VbeDevice.pixelIn, UInt16.toNat_zero, Nat.zero_add] at hmoved
    rw [← hmoved]
    refine bytesAt_eq_iff.mpr fun k hk => hpaints.outside _ _ ?_
    rintro ⟨j, hj, i, hi, hmem⟩
    rw [List.mem_range] at hi
    obtain ⟨-, hrow⟩ := cellBytes_disjoint hm hx (by simpa using hi) ⟨k, hk, rfl⟩ hmem
    rw [hsub] at hrow
    omega
  · refine hpaints.inside _ o ⟨y, List.mem_range.mpr hy, x, List.mem_range.mpr hx, ?_⟩
    rwa [hsub, UInt16.toNat_zero, Nat.zero_add]

end Frostix.Drivers
