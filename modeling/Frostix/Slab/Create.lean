import Frostix.Slab.Objects

/-!
The layout that `kmem_cache_create` computes. The validation lets every power of two through
as an alignment and every size; beyond a page the room behind the header is a difference that has
wrapped, and near 4 GiB the rounded object size is 0, which the next line divides by. -/
namespace Frostix.Slab
open Machine32 ByteMemory

variable {σ : Type}

/-- The address of the link that `new_slab` writes for object `i` of the slab at `virt`. -/
def linkAddr (c : KmemCache) (virt i : Nat) : Nat :=
  wrap (alignUp (wrap (virt + sizeofSlab)) c.align + wrap (i * c.objectSize))

/-- Objects of `size` bytes lie behind the header and inside the page, in exact arithmetic, and the
links of a new slab lie where the layout says, on every page. -/
structure SafeLayout (c : KmemCache) (size : Nat) : Prop where
  size_le : size ≤ c.objectSize
  pos : 1 ≤ c.objectsPerSlab
  room : roundUp sizeofSlab c.align + c.objectsPerSlab * c.objectSize ≤ 4096
  links : ∀ virt, SlabPage virt → ∀ i < c.objectsPerSlab,
    virt ≤ linkAddr c virt i ∧ linkAddr c virt i + 4 ≤ virt + 4096
  frame : ∀ virt cache, SlabPage virt → cache < 2 ^ 32 → ∀ m x, x < virt ∨ virt + 4096 ≤ x →
    buildSlab m cache c virt x = m x

/-- `kmem_cache_create` comes back without a division by zero, and a cache that it returns has a safe
layout. -/
structure CreatesSafely (ops : MmOps σ) (s : Slabs σ) (len size align : Nat) (ctor : Option (Mem → Nat → Mem)) :
    Prop where
  returns : ∃ r t, kmemCacheCreate ops s (some len) size align ctor = some (r, t)
  layout : ∀ r t, kmemCacheCreate ops s (some len) size align ctor = some (r, t) → r ≠ 0 →
    ∃ c, t.caches r = some c ∧ c.align = align ∧ SafeLayout c size

section Layout
variable {size align : Nat}

theorem Fits.safeLayout {c : KmemCache} (hfit : Fits { c with ctor := none }) (hsize : size ≤ c.objectSize) :
    SafeLayout c size := by
  have hfirst : firstObjOff c.align = roundUp sizeofSlab c.align := by
    obtain ⟨hpos, hle⟩ := hfit.align_bounds
    have hle' : c.align ≤ 2048 := hle
    exact alignUp_eq_roundUp hpos (by unfold sizeofSlab; omega)
  refine ⟨hsize, hfit.pos, ?_, ?_, ?_⟩
  · rw [← hfirst]
    exact hfit.room
  · intro virt hs i hi
    have hpage := hs.fits
    have hword : 4 ≤ c.objectSize := hfit.word
    obtain ⟨hlo, hhi⟩ := @Fits.slot_bounds { c with ctor := none } virt hfit i hi
    have hoff : alignUp (wrap (virt + sizeofSlab)) c.align = virt + firstObjOff c.align :=
      @objOff_eq { c with ctor := none } virt hfit hs
    have haddr : linkAddr c virt i = KmemCache.slot { c with ctor := none } virt i := by
      unfold KmemCache.slot at hlo hhi ⊢
      dsimp only at hlo hhi ⊢
      rw [linkAddr, hoff, wrap_of_lt (show i * c.objectSize < 2 ^ 32 by omega), wrap_of_lt (by omega)]
    dsimp only at hhi
    rw [haddr]
    omega
  · intro virt cache hs hcache m x hx
    exact (buildSlab_spec hfit hs hcache m).2 x hx

/-- The alignments that pass the check are powers of two up to `2^31`. -/
theorem exists_pow_of_align (hmin : slabMinAlign ≤ align) (hlt : align < 2 ^ 32)
    (hpow : align &&& (align - 1) = 0) : ∃ k ≤ 31, align = 2 ^ k := by
  unfold slabMinAlign at hmin
  obtain ⟨k, rfl⟩ := (Nat.and_sub_one_eq_zero_iff_isPowerOfTwo (by omega)).mp hpow
  exact ⟨k, Nat.le_of_lt_succ ((Nat.pow_lt_pow_iff_right (by decide : 1 < 2)).mp hlt), rfl⟩

/-- With an alignment beyond a page the header alone does not fit, but the room behind it has wrapped
and there seems to be space for an object. -/
theorem wide_layout (hmin : slabMinAlign ≤ align) (hlt : align < 2 ^ 32) (hpow : align &&& (align - 1) = 0)
    (hwide : 4096 < align) (hpos : 0 < size) (hsum : size + align ≤ 2 ^ 32) :
    4096 < roundUp sizeofSlab align ∧ wsub 4096 (firstObjOff align) / alignUp size align ≠ 0 := by
  obtain ⟨k, hk, rfl⟩ := exists_pow_of_align hmin hlt hpow
  have htop : 2 ^ k ≤ 2 ^ 31 := Nat.pow_le_pow_right (by decide) hk
  have hkpos : 0 < 2 ^ k := Nat.two_pow_pos k
  have hfirst : firstObjOff (2 ^ k) = roundUp sizeofSlab (2 ^ k) :=
    alignUp_eq_roundUp hkpos (by unfold sizeofSlab; omega)
  have hone : roundUp sizeofSlab (2 ^ k) = 2 ^ k := by
    refine le_antisymm (roundUp_le hkpos (by unfold sizeofSlab; omega) (dvd_refl _)) ?_
    refine Nat.le_of_dvd (lt_of_lt_of_le (by decide) (le_roundUp sizeofSlab hkpos)) (dvd_roundUp _ _)
  have hdvd : 2 ^ k ∣ 2 ^ 32 := pow_dvd_pow 2 (by omega)
  have hsize : alignUp size (2 ^ k) = roundUp size (2 ^ k) := alignUp_eq_roundUp hkpos hsum
  -- the rounded size stays below the multiple of the alignment at the top
  have hobject : roundUp size (2 ^ k) ≤ 2 ^ 32 - 2 ^ k :=
    roundUp_le hkpos (by omega) (Nat.dvd_sub hdvd (dvd_refl _))
  have hge := le_roundUp size hkpos
  have havail : wsub 4096 (2 ^ k) = 4096 + (2 ^ 32 - 2 ^ k) := by
    unfold wsub wrap
    rw [Nat.mod_eq_of_lt hlt, Nat.mod_eq_of_lt (by omega)]
  refine ⟨by rwa [hone], ?_⟩
  rw [hfirst, hone, havail, hsize]
  exact (Nat.div_pos (by omega) (by omega)).ne'

end Layout

/-- The layout is safe exactly if no descriptor can be allocated, or the alignment is at most a page
and the size, rounded up, fits in a word. -/
theorem create_safe_iff {ops : MmOps σ} {s : Slabs σ} {len size align : Nat} {ctor : Option (Mem → Nat → Mem)}
    {cache : Nat} {env : σ} (hmalloc : ops.kmalloc s.env (wrap (sizeofCache + (len + 1))) = some (cache, env))
    (hpos : 0 < size) (hword : size < 2 ^ 32) (hmin : slabMinAlign ≤ align) (hlt : align < 2 ^ 32)
    (hpow : align &&& (align - 1) = 0) :
    CreatesSafely ops s len size align ctor ↔ cache = 0 ∨ (align ≤ 4096 ∧ size + align ≤ 2 ^ 32) := by
  have hvalid : ¬ (size = 0 ∨ align < slabMinAlign ∨ align &&& (align - 1) ≠ 0) := by
    rw [not_or, not_or, not_not, not_lt]
    exact ⟨hpos.ne', hmin, hpow⟩
  have hapos : 0 < align := lt_of_lt_of_le (by decide) hmin
  by_cases hnull : cache = 0
  · refine iff_of_true ⟨⟨0, { s with env }, ?_⟩, ?_⟩ (Or.inl hnull)
    · simp [kmemCacheCreate, hvalid, hmalloc, hnull]
    · intro r t hrun hr
      simp only [kmemCacheCreate, if_neg hvalid, hmalloc, Option.bind_eq_bind, Option.bind_some,
        if_pos hnull] at hrun
      cases hrun
      exact absurd rfl hr
  have hrun : kmemCacheCreate ops s (some len) size align ctor =
      if alignUp size align = 0 then none
      else if wsub 4096 (firstObjOff align) / alignUp size align = 0 then
        some (0, { s with env := ops.kfree env cache })
      else some (cache, Slabs.setCache { s with env, kmemCaches := s.kmemCaches ++ [cache] } cache
        ⟨alignUp size align, align, ctor, wsub 4096 (firstObjOff align) / alignUp size align, [], [], []⟩) := by
    simp only [kmemCacheCreate, if_neg hvalid, hmalloc, Option.bind_eq_bind, Option.bind_some, if_neg hnull]
  constructor
  · rintro ⟨⟨r, t, hret⟩, hlayout⟩
    right
    have hsum : size + align ≤ 2 ^ 32 := by
      by_contra hbig
      rw [hrun, if_pos (alignUp_eq_zero hword hlt (by omega))] at hret
      cases hret
    refine ⟨?_, hsum⟩
    by_contra hwide
    obtain ⟨hheader, hcount⟩ := wide_layout hmin hlt hpow (not_le.mp hwide) hpos hsum
    have hsize : alignUp size align ≠ 0 := by
      rw [alignUp_eq_roundUp hapos hsum]
      have hle := le_roundUp size hapos
      omega
    rw [if_neg hsize, if_neg hcount] at hrun
    obtain ⟨c, hc, halign, hsafe⟩ := hlayout _ _ hrun hnull
    have hroom := hsafe.room
    rw [halign] at hroom
    omega
  · rintro (hzero | ⟨hle, hsum⟩)
    · exact absurd hzero hnull
    have hge := le_roundUp size hapos
    have hround := alignUp_eq_roundUp hapos hsum
    have hsize : alignUp size align ≠ 0 := by omega
    rw [if_neg hsize] at hrun
    by_cases hcount : wsub 4096 (firstObjOff align) / alignUp size align = 0
    · rw [if_pos hcount] at hrun
      refine ⟨⟨_, _, hrun⟩, fun r t hrun' hr => ?_⟩
      cases hrun.symm.trans hrun'
      exact absurd rfl hr
    · rw [if_neg hcount] at hrun
      refine ⟨⟨_, _, hrun⟩, fun r t hrun' _ => ?_⟩
      cases hrun.symm.trans hrun'
      have hfit := @fits_of_create size align none hmin hpow hle nofun hsize hcount
      exact ⟨_, Function.update_self .., rfl, Fits.safeLayout hfit (by dsimp only; omega)⟩

/-- A size of `0xFFFFFFFF` is rounded up to 0, and the objects are counted by dividing by it. -/
theorem create_divides_by_zero :
    slabMinAlign ≤ 8 ∧ 8 &&& (8 - 1) = 0 ∧
      ¬ CreatesSafely bumpOps (slabInit (fun _ => 0#8) 0xD0000014) 3 0xFFFFFFFF 8 none := by
  refine ⟨by decide, by decide, fun hsafe => ?_⟩
  have hfault : (kmemCacheCreate bumpOps (slabInit (fun _ => 0#8) 0xD0000014) (some 3) 0xFFFFFFFF 8
      none).isNone := by decide
  obtain ⟨r, t, hrun⟩ := hsafe.returns
  rw [hrun] at hfault
  cases hfault

theorem create_safe_small :
    CreatesSafely bumpOps (slabInit (fun _ => 0#8) 0xD0000014) 3 24 8 none ↔
      0xD0000014 = 0 ∨ (8 ≤ 4096 ∧ 24 + 8 ≤ 2 ^ 32) :=
  @create_safe_iff _ bumpOps _ 3 24 8 none 0xD0000014 0xD0000034 (by decide) (by decide) (by decide) (by decide)
    (by decide) (by decide)

end Frostix.Slab
