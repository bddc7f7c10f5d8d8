import Frostix.Slab.Model

/-!
The objects of one slab. Its slots are divided into the free ones, threaded through
their first words, and the live ones, counted by `inuse`. -/
namespace Frostix.Slab
open Machine32 ByteMemory

/-- Object `i` of a slab. -/
def KmemCache.slot (c : KmemCache) (slab i : Nat) : Nat :=
  slab + firstObjOff c.align + i * c.objectSize

def KmemCache.slots (c : KmemCache) (slab : Nat) : List Nat :=
  (List.range c.objectsPerSlab).map (c.slot slab)

def CtorOk (ctor : Option (Mem → Nat → Mem)) (objectSize : Nat) : Prop :=
  ∀ construct, ctor = some construct → ∀ m obj x, x < obj ∨ obj + objectSize ≤ x → construct m obj x = m x

/-- The geometry of a cache whose objects lie in the page of their slab. -/
structure Fits (c : KmemCache) : Prop where
  pos : 0 < c.objectsPerSlab
  word : 4 ≤ c.objectSize
  aligned : 4096 % c.align = 0
  header : sizeofSlab ≤ firstObjOff c.align
  room : firstObjOff c.align + c.objectsPerSlab * c.objectSize ≤ 4096
  ctor : CtorOk c.ctor c.objectSize

structure SlabPage (slab : Nat) : Prop where
  aligned : slab % 4096 = 0
  fits : slab + 4096 ≤ 2 ^ 32

/-- The free list from `head` on. -/
def Threaded (m : Mem) : Nat → List Nat → Prop
  | head, [] => head = 0
  | head, obj :: rest => head = obj ∧ obj ≠ 0 ∧ Threaded m (getNextFree m obj) rest

/-- The slab belongs to the cache, `live` are its objects in use and the others are on its
free list. -/
structure SlabOk (m : Mem) (cache : Nat) (c : KmemCache) (slab : Nat) (live : List Nat) : Prop where
  owner : slabCache m slab = cache
  inuse : slabInuse m slab = live.length
  objects : ∃ free, Threaded m (slabFreelist m slab) free ∧ (free ++ live).Perm (c.slots slab)

section Slots

variable {c : KmemCache} {slab : Nat}

theorem mem_slots {obj : Nat} : obj ∈ c.slots slab ↔ ∃ i < c.objectsPerSlab, c.slot slab i = obj := by
  simp [KmemCache.slots]

theorem length_slots : (c.slots slab).length = c.objectsPerSlab := by
  simp [KmemCache.slots]

theorem Fits.slot_bounds (h : Fits c) {i : Nat} (hi : i < c.objectsPerSlab) :
    slab + 20 ≤ c.slot slab i ∧ c.slot slab i + c.objectSize ≤ slab + 4096 := by
  have hheader := h.header
  have hroom := h.room
  have hmul : (i + 1) * c.objectSize ≤ c.objectsPerSlab * c.objectSize := Nat.mul_le_mul_right _ hi
  rw [Nat.succ_mul] at hmul
  unfold KmemCache.slot
  unfold sizeofSlab at hheader
  constructor
  · omega
  · omega

theorem slot_apart {i j : Nat} (hij : i < j) : c.slot slab i + c.objectSize ≤ c.slot slab j := by
  have hmul : (i + 1) * c.objectSize ≤ j * c.objectSize := Nat.mul_le_mul_right _ hij
  rw [Nat.succ_mul] at hmul
  unfold KmemCache.slot
  omega

theorem Fits.bounds (h : Fits c) {obj : Nat} (hobj : obj ∈ c.slots slab) :
    slab + 20 ≤ obj ∧ obj + c.objectSize ≤ slab + 4096 := by
  obtain ⟨i, hi, rfl⟩ := mem_slots.mp hobj
  exact h.slot_bounds hi

theorem slots_apart {o o' : Nat} (ho : o ∈ c.slots slab) (ho' : o' ∈ c.slots slab) (hne : o ≠ o') :
    o + c.objectSize ≤ o' ∨ o' + c.objectSize ≤ o := by
  obtain ⟨i, -, rfl⟩ := mem_slots.mp ho
  obtain ⟨j, -, rfl⟩ := mem_slots.mp ho'
  rcases lt_trichotomy i j with hij | rfl | hij
  · exact Or.inl (slot_apart hij)
  · exact absurd rfl hne
  · exact Or.inr (slot_apart hij)

theorem Fits.slots_nodup (h : Fits c) : (c.slots slab).Nodup := by
  refine List.Nodup.map_on ?_ List.nodup_range
  intro i _ j _ heq
  have hword := h.word
  rcases lt_trichotomy i j with hij | hij | hij
  · have := @slot_apart c slab _ _ hij
    omega
  · exact hij
  · have := @slot_apart c slab _ _ hij
    omega

theorem Fits.objToSlab (h : Fits c) (hs : SlabPage slab) {obj : Nat} (hobj : obj ∈ c.slots slab) :
    objToSlab obj = slab := by
  obtain ⟨hlo, hhi⟩ := h.bounds hobj
  have hword := h.word
  have haligned := hs.aligned
  unfold Slab.objToSlab alignDown
  omega

end Slots

theorem Threaded.congr {m m' : Mem} {free : List Nat} :
    ∀ {head : Nat}, Threaded m head free → (∀ o ∈ free, Same m m' o 4) → Threaded m' head free := by
  induction free with
  | nil => exact fun h _ => h
  | cons o free ih =>
      rintro head ⟨rfl, hne, hrest⟩ hsame
      have hnext : getNextFree m' head = getNextFree m head :=
        load32_congr (hsame head List.mem_cons_self)
      refine ⟨rfl, hne, ?_⟩
      rw [hnext]
      exact ih hrest fun o ho => hsame o (List.mem_cons_of_mem _ ho)

theorem Threaded.head_lt {m : Mem} {head : Nat} {free : List Nat} (h : Threaded m head free)
    (hlt : ∀ o ∈ free, o < 2 ^ 32) : head < 2 ^ 32 := by
  cases free with
  | nil =>
      have hzero : head = 0 := h
      omega
  | cons o free =>
      rw [h.1]
      exact hlt o List.mem_cons_self

section Slab

variable {m m' : Mem} {cache slab : Nat} {c : KmemCache} {live : List Nat}

theorem SlabOk.live_slots (h : SlabOk m cache c slab live) {obj : Nat} (hobj : obj ∈ live) :
    obj ∈ c.slots slab := by
  obtain ⟨free, -, hperm⟩ := h.objects
  exact hperm.mem_iff.mp (List.mem_append_right _ hobj)

theorem SlabOk.live_nodup (h : SlabOk m cache c slab live) (hfit : Fits c) : live.Nodup := by
  obtain ⟨free, -, hperm⟩ := h.objects
  exact (List.nodup_append.mp (hperm.nodup_iff.mpr hfit.slots_nodup)).2.1

theorem SlabOk.length_le (h : SlabOk m cache c slab live) : live.length ≤ c.objectsPerSlab := by
  obtain ⟨free, -, hperm⟩ := h.objects
  have hlen := hperm.length_eq
  rw [List.length_append, length_slots] at hlen
  omega

theorem SlabOk.congr (h : SlabOk m cache c slab live) (hhead : Same m m' slab 12)
    (hfree : ∀ o ∈ c.slots slab, o ∉ live → Same m m' o 4) (hfit : Fits c) :
    SlabOk m' cache c slab live := by
  obtain ⟨free, hthread, hperm⟩ := h.objects
  have hnodup := hperm.nodup_iff.mpr hfit.slots_nodup
  have hcache : slabCache m' slab = slabCache m slab := load32_congr (hhead.mono le_rfl (by omega))
  have hlist : slabFreelist m' slab = slabFreelist m slab :=
    load32_congr (hhead.mono (by omega) (by omega))
  have hcount : slabInuse m' slab = slabInuse m slab := load32_congr (hhead.mono (by omega) (by omega))
  refine ⟨hcache.trans h.owner, hcount.trans h.inuse, free, ?_, hperm⟩
  rw [hlist]
  refine hthread.congr fun o ho => hfree o (hperm.mem_iff.mp (List.mem_append_left _ ho)) ?_
  intro hlive
  exact (List.nodup_append.mp hnodup).2.2 o ho o hlive rfl

theorem SlabOk.congr_page (h : SlabOk m cache c slab live) (hfit : Fits c)
    (hsame : Same m m' slab 4096) : SlabOk m' cache c slab live := by
  refine h.congr (hsame.mono le_rfl (by omega)) (fun o ho _ => ?_) hfit
  obtain ⟨hlo, hhi⟩ := hfit.bounds ho
  have hword := hfit.word
  exact hsame.mono (by omega) (by omega)

theorem SlabOk.write (h : SlabOk m cache c slab live) (hfit : Fits c) {obj : Nat} (hobj : obj ∈ live)
    (m₁ : Mem) (hsame : ∀ x, x < obj ∨ obj + c.objectSize ≤ x → m₁ x = m x) :
    SlabOk m₁ cache c slab live := by
  have hslot := h.live_slots hobj
  obtain ⟨hlo, hhi⟩ := hfit.bounds hslot
  have hword := hfit.word
  refine h.congr (fun x _ _ => hsame x (by omega)) (fun o ho hout => ?_) hfit
  have hne : o ≠ obj := by
    rintro rfl
    exact hout hobj
  have hapart := slots_apart ho hslot hne
  intro x _ _
  exact hsame x (by omega)

end Slab

/-- The alignments that pass the check of `kmem_cache_create` and are at most a page. -/
theorem align_dvd {align : Nat} (hmin : slabMinAlign ≤ align) (hpow : align &&& (align - 1) = 0)
    (hle : align ≤ 4096) : align ∣ 4096 := by
  unfold slabMinAlign at hmin
  obtain ⟨k, rfl⟩ := (Nat.and_sub_one_eq_zero_iff_isPowerOfTwo (by omega)).mp hpow
  have hk : k ≤ 12 := (Nat.pow_le_pow_iff_right (by decide : 1 < 2)).mp (hle.trans_eq (by decide))
  exact pow_dvd_pow 2 hk

theorem firstObjOff_bounds {align : Nat} (hpos : 0 < align) (hdvd : align ∣ 4096) :
    sizeofSlab ≤ firstObjOff align ∧ firstObjOff align ≤ 4096 := by
  have hle : align ≤ 4096 := Nat.le_of_dvd (by decide) hdvd
  unfold firstObjOff sizeofSlab
  rw [alignUp_of_lt (by omega)]
  have hsplit := Nat.div_add_mod (20 + (align - 1)) align
  have hmod := Nat.mod_lt (20 + (align - 1)) hpos
  rw [Nat.mul_comm] at hsplit
  refine ⟨by omega, ?_⟩
  obtain ⟨q, hq⟩ := hdvd
  have hlt : (20 + (align - 1)) / align < q + 1 := by
    rw [Nat.div_lt_iff_lt_mul hpos, Nat.succ_mul, Nat.mul_comm q, ← hq]
    omega
  calc (20 + (align - 1)) / align * align ≤ q * align := Nat.mul_le_mul_right _ (Nat.le_of_lt_succ hlt)
    _ = 4096 := by rw [Nat.mul_comm, ← hq]

/-- The geometry that `kmem_cache_create` computes. -/
theorem fits_of_create {size align : Nat} {ctor : Option (Mem → Nat → Mem)}
    (hmin : slabMinAlign ≤ align) (hpow : align &&& (align - 1) = 0) (hle : align ≤ 4096)
    (hctor : CtorOk ctor (alignUp size align)) (hsize : alignUp size align ≠ 0)
    (hcount : wsub 4096 (firstObjOff align) / alignUp size align ≠ 0) :
    Fits ⟨alignUp size align, align, ctor, wsub 4096 (firstObjOff align) / alignUp size align, [], [], []⟩ := by
  have hdvd := align_dvd hmin hpow hle
  unfold slabMinAlign at hmin
  obtain ⟨hheader, hfirst⟩ := firstObjOff_bounds (by omega) hdvd
  have havail : wsub 4096 (firstObjOff align) = 4096 - firstObjOff align := wsub_of_le (by decide) hfirst
  refine ⟨Nat.pos_of_ne_zero hcount, ?_, Nat.mod_eq_zero_of_dvd hdvd, hheader, ?_, hctor⟩
  · -- a multiple of the alignment that is not zero
    have hmul : align ∣ alignUp size align := Dvd.intro_left _ rfl
    have hge := Nat.le_of_dvd (Nat.pos_of_ne_zero hsize) hmul
    dsimp only
    omega
  · have hdiv := Nat.div_mul_le_self (4096 - firstObjOff align) (alignUp size align)
    dsimp only
    rw [havail]
    omega

theorem Fits.align_bounds {c : KmemCache} (h : Fits c) : 0 < c.align ∧ c.align ≤ 2048 := by
  obtain ⟨q, hq⟩ := Nat.dvd_of_mod_eq_zero h.aligned
  have hpos : 0 < c.align := by
    by_contra hzero
    rw [Nat.eq_zero_of_not_pos hzero, Nat.zero_mul] at hq
    omega
  refine ⟨hpos, ?_⟩
  have hle : c.align ≤ 4096 := Nat.le_of_dvd (by decide) ⟨q, hq⟩
  have hmul : 1 * c.objectSize ≤ c.objectsPerSlab * c.objectSize := Nat.mul_le_mul_right _ h.pos
  have hword := h.word
  have hroom := h.room
  -- an alignment of a whole page would put the first object behind the page
  have hne : c.align ≠ 4096 := by
    intro heq
    rw [heq, show firstObjOff 4096 = 4096 from rfl] at hroom
    omega
  have hq2 : 2 ≤ q := by
    rcases q with _ | _ | q
    · omega
    · omega
    · omega
  have hdouble : c.align * 2 ≤ c.align * q := Nat.mul_le_mul_left _ hq2
  omega

theorem objOff_eq {c : KmemCache} {virt : Nat} (hfit : Fits c) (hs : SlabPage virt) :
    alignUp (wrap (virt + sizeofSlab)) c.align = virt + firstObjOff c.align := by
  have hle := hs.fits
  obtain ⟨hpos, hk⟩ := hfit.align_bounds
  obtain ⟨k, rfl⟩ : c.align ∣ virt := Dvd.dvd.trans (Nat.dvd_of_mod_eq_zero hfit.aligned)
    (Nat.dvd_of_mod_eq_zero hs.aligned)
  unfold firstObjOff sizeofSlab
  rw [wrap_of_lt (by omega), alignUp_of_lt (by omega), alignUp_of_lt (by omega),
    show c.align * k + 20 + (c.align - 1) = (20 + (c.align - 1)) + c.align * k by omega,
    Nat.add_mul_div_left _ _ hpos, Nat.add_mul, Nat.mul_comm k]
  omega

/-- The loop threads the objects, the last one first, and stays behind the header. -/
theorem linkObjects_spec {c : KmemCache} {virt : Nat} (hfit : Fits c) (hs : SlabPage virt) (m : Mem) :
    let r := linkObjects m (virt + firstObjOff c.align) c.objectSize c.objectsPerSlab
    Threaded r.1 r.2 (c.slots virt).reverse ∧
      ∀ x, x < virt + 20 ∨ virt + 4096 ≤ x → r.1 x = m x := by
  have hpage := hs.fits
  have hword := hfit.word
  unfold linkObjects KmemCache.slots
  apply Loop.foldl_range (fun k (r : Mem × Nat) =>
    Threaded r.1 r.2 ((List.range k).map (c.slot virt)).reverse ∧
      ∀ x, x < virt + 20 ∨ virt + 4096 ≤ x → r.1 x = m x)
  · exact ⟨rfl, fun _ _ => rfl⟩
  · rintro k hk ⟨m₁, prev⟩ ⟨hthread, hsame⟩
    obtain ⟨hlo, hhi⟩ := @Fits.slot_bounds c virt hfit k hk
    have hobj : wrap (virt + firstObjOff c.align + wrap (k * c.objectSize)) = c.slot virt k := by
      unfold KmemCache.slot at hlo hhi ⊢
      rw [wrap_of_lt (show k * c.objectSize < 2 ^ 32 by omega), wrap_of_lt (by omega)]
    have hbefore : ∀ o ∈ ((List.range k).map (c.slot virt)).reverse,
        o + c.objectSize ≤ c.slot virt k := by
      intro o ho
      obtain ⟨i, hi, rfl⟩ := List.mem_map.mp (List.mem_reverse.mp ho)
      exact slot_apart (List.mem_range.mp hi)
    have hprev : prev < 2 ^ 32 := hthread.head_lt fun o ho => by
      have hle := hbefore o ho
      omega
    simp only [hobj, List.range_succ, List.map_append, List.map_cons, List.map_nil,
      List.reverse_append, List.reverse_cons, List.reverse_nil, List.nil_append,
      List.singleton_append]
    refine ⟨⟨rfl, by omega, ?_⟩, ?_⟩
    · rw [show getNextFree (setNextFree m₁ (c.slot virt k) prev) (c.slot virt k) = prev from
        load32_store32 _ _ hprev]
      refine hthread.congr fun o ho => ?_
      have hle := hbefore o ho
      exact store32_frame _ _ _ (by omega)
    · intro x hx
      rw [← hsame x hx]
      exact store32_apply_of_apart _ _ (by omega)

/-- A new slab belongs to its cache and has no live object; nothing else is written. -/
theorem buildSlab_spec {c : KmemCache} {virt cache : Nat} (hfit : Fits c) (hs : SlabPage virt)
    (hcache : cache < 2 ^ 32) (m : Mem) :
    SlabOk (buildSlab m cache c virt) cache c virt [] ∧
      ∀ x, x < virt ∨ virt + 4096 ≤ x → buildSlab m cache c virt x = m x := by
  have hpage := hs.fits
  have hword := hfit.word
  unfold buildSlab
  rw [objOff_eq hfit hs]
  obtain ⟨hthread, hsame⟩ :=
    linkObjects_spec hfit hs (setInuse (setCache (memset m virt 0#8 sizeofSlab) virt cache) virt 0)
  dsimp only at hthread hsame ⊢
  generalize hr : linkObjects (setInuse (setCache (memset m virt 0#8 sizeofSlab) virt cache) virt 0)
    (virt + firstObjOff c.align) c.objectSize c.objectsPerSlab = r at hthread hsame ⊢
  obtain ⟨m₁, prev⟩ := r
  dsimp only at hthread hsame ⊢
  have hslots : ∀ o ∈ (c.slots virt).reverse, virt + 20 ≤ o ∧ o + c.objectSize ≤ virt + 4096 :=
    fun o ho => hfit.bounds (List.mem_reverse.mp ho)
  have hprev : prev < 2 ^ 32 := hthread.head_lt fun o ho => by
    have hle := hslots o ho
    omega
  have hhead : Same (setInuse (setCache (memset m virt 0#8 sizeofSlab) virt cache) virt 0) m₁ virt 20 :=
    fun x _ _ => hsame x (by omega)
  constructor
  · refine ⟨?_, ?_, (c.slots virt).reverse, ?_, ?_⟩
    · unfold slabCache setFreelist
      rw [load32_store32_of_apart _ _ (by omega), load32_congr (hhead.mono le_rfl (by omega))]
      unfold setInuse setCache
      rw [load32_store32_of_apart _ _ (by omega), load32_store32 _ _ hcache]
    · unfold slabInuse setFreelist
      rw [load32_store32_of_apart _ _ (by omega), load32_congr (hhead.mono (by omega) (by omega))]
      exact load32_store32 _ _ (by decide)
    · rw [show slabFreelist (setFreelist m₁ virt prev) virt = prev from load32_store32 _ _ hprev]
      refine hthread.congr fun o ho => store32_frame _ _ _ ?_
      have hle := hslots o ho
      omega
    · rw [List.append_nil]
      exact List.reverse_perm _
  · intro x hx
    unfold setFreelist
    rw [store32_apply_of_apart _ _ (by omega), hsame x (by omega)]
    unfold setInuse setCache
    rw [store32_apply_of_apart _ _ (by omega), store32_apply_of_apart _ _ (by omega), memset,
      if_neg (by unfold sizeofSlab; omega)]

section Objects

variable {m : Mem} {cache slab : Nat} {c : KmemCache} {live : List Nat}

/-- The header after an object was taken from the free list. -/
theorem SlabOk.pop (h : SlabOk m cache c slab live) (hfit : Fits c) (hs : SlabPage slab)
    (hroom : live.length < c.objectsPerSlab) :
    slabFreelist m slab ≠ 0 ∧
      SlabOk (setInuse (setFreelist m slab (getNextFree m (slabFreelist m slab))) slab
        (wrap (slabInuse (setFreelist m slab (getNextFree m (slabFreelist m slab))) slab + 1)))
        cache c slab (slabFreelist m slab :: live) := by
  have hpage := hs.fits
  have hword := hfit.word
  obtain ⟨free, hthread, hperm⟩ := h.objects
  cases free with
  | nil =>
      have hlen := hperm.length_eq
      rw [List.nil_append, length_slots] at hlen
      omega
  | cons obj rest =>
      obtain ⟨hobj, hne, hrest⟩ := hthread
      have hmem : ∀ o ∈ rest, slab + 20 ≤ o ∧ o + c.objectSize ≤ slab + 4096 := fun o ho =>
        hfit.bounds (hperm.mem_iff.mp (List.mem_append_left _ (List.mem_cons_of_mem _ ho)))
      have hcount : live.length + 1 < 2 ^ 32 := by
        have hle := hfit.room
        have hmul : c.objectsPerSlab * 1 ≤ c.objectsPerSlab * c.objectSize :=
          Nat.mul_le_mul_left _ (by omega)
        omega
      have hinuse : slabInuse (setFreelist m slab (getNextFree m obj)) slab = live.length :=
        (load32_store32_of_apart _ _ (by omega)).trans h.inuse
      rw [hobj, hinuse, wrap_of_lt hcount]
      refine ⟨hne, ?_, load32_store32 _ _ hcount, rest, ?_, ?_⟩
      · refine ((load32_store32_of_apart _ _ (by omega)).trans ?_).trans h.owner
        exact load32_store32_of_apart _ _ (by omega)
      · have hhead : slabFreelist (setInuse (setFreelist m slab (getNextFree m obj)) slab
            (live.length + 1)) slab = getNextFree m obj :=
          (load32_store32_of_apart _ _ (by omega)).trans (load32_store32 _ _ (load32_lt _ _))
        rw [hhead]
        refine hrest.congr fun o ho => ?_
        have hle := hmem o ho
        exact (store32_frame _ _ _ (by omega)).trans (store32_frame _ _ _ (by omega))
      · exact List.perm_middle.trans hperm

/-- `kmem_cache_alloc` on a slab with a free object. -/
theorem popObject_spec (h : SlabOk m cache c slab live) (hfit : Fits c) (hs : SlabPage slab)
    (hroom : live.length < c.objectsPerSlab) :
    ∃ obj m', popObject m c slab = some (obj, m') ∧ obj ≠ 0 ∧ SlabOk m' cache c slab (obj :: live) ∧
      ∀ x, x < slab ∨ slab + 4096 ≤ x → m' x = m x := by
  obtain ⟨hne, hok⟩ := h.pop hfit hs hroom
  obtain ⟨hlo, hhi⟩ := hfit.bounds (hok.live_slots List.mem_cons_self)
  have hclear := hok.write hfit List.mem_cons_self
    (memset _ (slabFreelist m slab) 0#8 c.objectSize) fun x hx => if_neg (by omega)
  have hout : ∀ x, x < slab ∨ slab + 4096 ≤ x →
      memset (setInuse (setFreelist m slab (getNextFree m (slabFreelist m slab))) slab
        (wrap (slabInuse (setFreelist m slab (getNextFree m (slabFreelist m slab))) slab + 1)))
        (slabFreelist m slab) 0#8 c.objectSize x = m x := by
    intro x hx
    rw [memset, if_neg (by omega)]
    unfold setInuse setFreelist
    rw [store32_apply_of_apart _ _ (by omega), store32_apply_of_apart _ _ (by omega)]
  unfold popObject
  simp only [if_neg hne]
  cases hctor : c.ctor with
  | none => exact ⟨_, _, rfl, hne, hclear, hout⟩
  | some construct =>
      have honly := hfit.ctor construct hctor
      refine ⟨_, _, rfl, hne, hclear.write hfit List.mem_cons_self _ fun x hx => honly _ _ x hx, ?_⟩
      intro x hx
      rw [honly _ _ x (by omega)]
      exact hout x hx

/-- `kmem_cache_free` of a live object. -/
theorem SlabOk.push (h : SlabOk m cache c slab live) (hfit : Fits c) (hs : SlabPage slab) {obj : Nat}
    (hobj : obj ∈ live) :
    slabInuse (pushObject m slab obj) slab = live.length ∧
      SlabOk (setInuse (pushObject m slab obj) slab (live.length - 1)) cache c slab (live.erase obj) ∧
      ∀ x, x < slab ∨ slab + 4096 ≤ x → setInuse (pushObject m slab obj) slab (live.length - 1) x = m x := by
  have hpage := hs.fits
  have hword := hfit.word
  have hslot := h.live_slots hobj
  obtain ⟨hlo, hhi⟩ := hfit.bounds hslot
  obtain ⟨free, hthread, hperm⟩ := h.objects
  have hfree : ∀ o ∈ free, o ∈ c.slots slab ∧ o ≠ obj := by
    intro o ho
    refine ⟨hperm.mem_iff.mp (List.mem_append_left _ ho), ?_⟩
    rintro rfl
    exact (List.nodup_append.mp (hperm.nodup_iff.mpr hfit.slots_nodup)).2.2 o ho o hobj rfl
  have hhead : slabFreelist m slab < 2 ^ 32 := load32_lt _ _
  have hlen : live.length < 2 ^ 32 := by
    have hle := h.inuse
    rw [← hle]
    exact load32_lt _ _
  have hinuse : slabInuse (pushObject m slab obj) slab = live.length := by
    refine ((load32_store32_of_apart _ _ (by omega)).trans ?_).trans h.inuse
    exact load32_store32_of_apart _ _ (by omega)
  refine ⟨hinuse, ⟨?_, ?_, obj :: free, ⟨?_, by omega, ?_⟩, ?_⟩, ?_⟩
  · refine ((load32_store32_of_apart _ _ (by omega)).trans ?_).trans h.owner
    refine (load32_store32_of_apart _ _ (by omega)).trans ?_
    exact load32_store32_of_apart _ _ (by omega)
  · rw [List.length_erase_of_mem hobj]
    exact load32_store32 _ _ (by omega)
  · exact (load32_store32_of_apart _ _ (by omega)).trans (load32_store32 _ _ (by omega))
  · have hnext : getNextFree (setInuse (pushObject m slab obj) slab (live.length - 1)) obj =
        slabFreelist m slab := by
      refine (load32_store32_of_apart _ _ (by omega)).trans ?_
      exact (load32_store32_of_apart _ _ (by omega)).trans (load32_store32 _ _ hhead)
    rw [hnext]
    refine hthread.congr fun o ho => ?_
    have hbounds := hfit.bounds (hfree o ho).1
    have hapart := slots_apart (hfree o ho).1 hslot (hfree o ho).2
    have hlink : Same m (setNextFree m obj (slabFreelist m slab)) o 4 := store32_frame _ _ _ (by omega)
    have hlist : Same (setNextFree m obj (slabFreelist m slab)) (pushObject m slab obj) o 4 :=
      store32_frame _ _ _ (by omega)
    exact (hlink.trans hlist).trans (store32_frame _ _ _ (by omega))
  · have hlive := List.perm_cons_erase hobj
    refine List.Perm.trans ?_ ((List.Perm.append_left free hlive.symm).trans hperm)
    exact List.perm_middle.symm
  · intro x hx
    unfold setInuse pushObject setFreelist setNextFree
    rw [store32_apply_of_apart _ _ (by omega), store32_apply_of_apart _ _ (by omega),
      store32_apply_of_apart _ _ (by omega)]

end Objects

end Frostix.Slab
