import Frostix.Slab.Fitting

/-!
The free lists over whole runs. Unlike the lists that slabs are on, they never go wrong:
in every slab the free list and the live objects divide the slots, whatever list the slab
is on, as long as a slab on the partial or the free list has a free object. -/
namespace Frostix.Slab
open Machine32 ByteMemory

variable {σ : Type}

/-- The contract of the functions below: the allocator, and that a page is mapped for a
slab only where there is no slab. -/
structure Supplies (ops : MmOps σ) (J : Set Nat → Set Nat → σ → Prop) : Prop where
  allocator : ∀ P, Allocator ops fun A s => J A P s
  back : ∀ {A P s} (virt : Nat), SlabPage virt → J A P s →
    ∃ backing s', backSlab ops s virt = some (backing, s') ∧
      (backing = .mapped → virt ∉ P ∧ J A (insert virt P) s') ∧ (backing ≠ .mapped → J A P s')

/-- The free list of a slab of the cache: distinct slots that are not in use, as many as
the counter leaves. -/
structure FreeList (s : Client σ) (c : KmemCache) (slab : Nat) (free : List Nat) : Prop where
  threaded : Threaded s.slabs.mem (slabFreelist s.slabs.mem slab) free
  distinct : free.Nodup
  slots : ∀ o ∈ free, o ∈ c.slots slab
  count : free.length + slabInuse s.slabs.mem slab = c.objectsPerSlab
  unused : ∀ x ∈ s.live, x.2 ∉ free

def KmemCache.construct (c : KmemCache) (m : Mem) (obj : Nat) : Mem :=
  match c.ctor with
  | none => m
  | some construct => construct m obj

/-- An object that `kmem_cache_alloc` returned in state `s`, with the state after it. -/
structure Delivered (s : Client σ) (cache : Nat) (c : KmemCache) (obj : Nat) (s' : Client σ) : Prop where
  slab : (cache, objToSlab obj) ∈ s'.backed
  aligned : obj % c.align = 0
  inside : objToSlab obj + sizeofSlab ≤ obj ∧ obj + c.objectSize ≤ objToSlab obj + 4096
  apart : ∀ x ∈ s.live, ∀ d, s.slabs.caches x.1 = some d →
    obj + c.objectSize ≤ x.2 ∨ x.2 + d.objectSize ≤ obj
  cleared : ∃ m, (∀ i < c.objectSize, m (obj + i) = 0#8) ∧ s'.slabs.mem = c.construct m obj

structure CacheSound (s : Client σ) (cache : Nat) (c : KmemCache) : Prop where
  fits : Fits c
  stride : c.objectSize % c.align = 0
  pos : cache ≠ 0
  word : cache < 2 ^ 32
  listed : c.slabs.Perm (slabsOf s.backed cache)
  room : ∀ slab ∈ c.slabsPartial ++ c.slabsFree, slabInuse s.slabs.mem slab < c.objectsPerSlab
  slabs : ∀ slab ∈ c.slabs, SlabOk s.slabs.mem cache c slab (objectsIn s.live slab)

structure Sound (J : Set Nat → Set Nat → σ → Prop) (s : Client σ) : Prop where
  caches : ∀ cache c, s.slabs.caches cache = some c → CacheSound s cache c
  known : ∀ x ∈ s.backed, s.slabs.caches x.1 ≠ none
  distinct : (s.backed.map Prod.snd).Nodup
  pages : ∀ x ∈ s.backed, SlabPage x.2
  next : SlabPage s.slabs.nextSlabVirt
  live : ∀ x ∈ s.live, (x.1, objToSlab x.2) ∈ s.backed
  env : J {a | s.slabs.caches a ≠ none} {p | p ∈ s.backed.map Prod.snd} s.slabs.env

section Change

variable {J : Set Nat → Set Nat → σ → Prop} {s : Client σ} {cache slab : Nat} {c : KmemCache}

theorem CacheSound.keep {s' : Client σ} (h : CacheSound s cache c)
    (hmem : ∀ x ∈ c.slabs, Same s.slabs.mem s'.slabs.mem x 4096)
    (hlive : ∀ x ∈ c.slabs, (objectsIn s.live x).Perm (objectsIn s'.live x))
    (hlisted : slabsOf s'.backed cache = slabsOf s.backed cache) : CacheSound s' cache c := by
  refine ⟨h.fits, h.stride, h.pos, h.word, hlisted ▸ h.listed, ?_, ?_⟩
  · intro x hx
    have hsame : slabInuse s'.slabs.mem x = slabInuse s.slabs.mem x :=
      load32_congr ((hmem x (List.mem_append_right _ hx)).mono (by omega) (by omega))
    rw [hsame]
    exact h.room x hx
  · exact fun x hx => ((h.slabs x hx).congr_page h.fits (hmem x hx)).perm (hlive x hx)

theorem Sound.backed (h : Sound J s) (hc : s.slabs.caches cache = some c) (hslab : slab ∈ c.slabs) :
    (cache, slab) ∈ s.backed := mem_slabsOf.mp ((h.caches cache c hc).listed.mem_iff.mp hslab)

theorem Sound.nodup (h : Sound J s) (hc : s.slabs.caches cache = some c) : c.slabs.Nodup :=
  (h.caches cache c hc).listed.nodup_iff.mpr (h.distinct.sublist (slabsOf_sublist _ _))

theorem Sound.same_page (h : Sound J s) {x y : Nat × Nat} (hx : x ∈ s.backed) (hy : y ∈ s.backed)
    (hne : y.2 ≠ x.2) {m' : Mem} (hout : ∀ a, a < x.2 ∨ x.2 + 4096 ≤ a → m' a = s.slabs.mem a) :
    Same s.slabs.mem m' y.2 4096 := by
  have haligned := (h.pages x hx).aligned
  have haligned' := (h.pages y hy).aligned
  intro a _ _
  exact hout a (by omega)

/-- The page of one slab is written, and its cache and the live objects in it change. -/
theorem Sound.update (h : Sound J s) (hc : s.slabs.caches cache = some c) (hslab : slab ∈ c.slabs)
    {m' : Mem} {c' : KmemCache} {live' : List (Nat × Nat)} (hgeo : SameGeometry c c')
    (hperm : c'.slabs.Perm c.slabs) (hout : ∀ x, x < slab ∨ slab + 4096 ≤ x → m' x = s.slabs.mem x)
    (hok : SlabOk m' cache c slab (objectsIn live' slab))
    (hrest : ∀ other, other ≠ slab → (objectsIn s.live other).Perm (objectsIn live' other))
    (hlive : ∀ x ∈ live', (x.1, objToSlab x.2) ∈ s.backed)
    (hroom : ∀ x ∈ c'.slabsPartial ++ c'.slabsFree,
      x ≠ slab ∧ x ∈ c.slabsPartial ++ c.slabsFree ∨ x = slab ∧ slabInuse m' slab < c.objectsPerSlab) :
    Sound J ⟨{ s.slabs with mem := m' }.setCache cache c', live', s.backed⟩ := by
  have hcache := h.caches cache c hc
  have hback := h.backed hc hslab
  refine ⟨?_, ?_, h.distinct, h.pages, h.next, hlive, ?_⟩
  · intro k d hd
    have hd' : Function.update s.slabs.caches cache (some c') k = some d := hd
    by_cases hk : k = cache
    · subst hk
      rw [Function.update_self] at hd'
      cases hd'
      have hsame : ∀ other ∈ c.slabs, other ≠ slab → Same s.slabs.mem m' other 4096 :=
        fun other hother hne => h.same_page hback (h.backed hc hother) hne hout
      refine ⟨hgeo.fits hcache.fits, ?_, hcache.pos, hcache.word, hperm.trans hcache.listed, ?_, ?_⟩
      · rw [hgeo.objectSize, hgeo.align]
        exact hcache.stride
      · intro x hx
        rw [hgeo.objectsPerSlab]
        rcases hroom x hx with ⟨hne, hmem⟩ | ⟨rfl, hlt⟩
        · have hin := hsame x (List.mem_append_right _ hmem) hne
          have hcount : slabInuse m' x = slabInuse s.slabs.mem x :=
            load32_congr (hin.mono (by omega) (by omega))
          exact hcount.trans_lt (hcache.room x hmem)
        · exact hlt
      · intro other hother
        have hmem := hperm.mem_iff.mp hother
        by_cases heq : other = slab
        · subst heq
          exact hok.congr_cache hgeo
        · have hkept := (hcache.slabs other hmem).congr_page hcache.fits (hsame other hmem heq)
          exact (hkept.perm (hrest other heq)).congr_cache hgeo
    · rw [Function.update_of_ne hk] at hd'
      have hne : ∀ other ∈ d.slabs, other ≠ slab := by
        rintro other hother rfl
        have heq := List.inj_on_of_nodup_map h.distinct (h.backed hd' hother) hback rfl
        exact hk (Prod.mk.inj heq).1
      exact (h.caches k d hd').keep
        (fun x hx => h.same_page hback (h.backed hd' hx) (hne x hx) hout)
        (fun x hx => hrest x (hne x hx)) rfl
  · intro x hx
    by_cases hk : x.1 = cache
    · simp [Slabs.setCache, hk]
    · simpa [Slabs.setCache, Function.update_of_ne hk] using h.known x hx
  · dsimp only [Slabs.setCache]
    rw [caches_update hc]
    exact h.env

end Change

section Alloc

variable {J : Set Nat → Set Nat → σ → Prop} {s : Client σ} {cache slab : Nat} {c : KmemCache}

theorem popObject_cleared {m m' : Mem} {obj : Nat} (h : popObject m c slab = some (obj, m')) :
    ∃ m₀, (∀ i < c.objectSize, m₀ (obj + i) = 0#8) ∧ m' = c.construct m₀ obj := by
  unfold popObject at h
  dsimp only at h
  split_ifs at h with hnull
  unfold KmemCache.construct
  cases hctor : c.ctor with
  | none =>
      rw [hctor] at h
      obtain ⟨rfl, rfl⟩ := Prod.mk.inj (Option.some.inj h)
      refine ⟨_, fun i hi => ?_, rfl⟩
      exact if_pos ⟨by omega, by omega⟩
  | some construct =>
      rw [hctor] at h
      obtain ⟨rfl, rfl⟩ := Prod.mk.inj (Option.some.inj h)
      refine ⟨_, fun i hi => ?_, rfl⟩
      exact if_pos ⟨by omega, by omega⟩

theorem slot_aligned (hfit : Fits c) (hstride : c.objectSize % c.align = 0) (hs : SlabPage slab) {obj : Nat}
    (hobj : obj ∈ c.slots slab) : obj % c.align = 0 := by
  obtain ⟨i, -, rfl⟩ := mem_slots.mp hobj
  have hslab : c.align ∣ slab := Dvd.dvd.trans (Nat.dvd_of_mod_eq_zero hfit.aligned)
    (Nat.dvd_of_mod_eq_zero hs.aligned)
  have hfirst : c.align ∣ firstObjOff c.align := Dvd.intro_left _ rfl
  have hsize : c.align ∣ i * c.objectSize := (Nat.dvd_of_mod_eq_zero hstride).mul_left i
  exact Nat.mod_eq_zero_of_dvd ((hslab.add hfirst).add hsize)

theorem Sound.live_slot (h : Sound J s) {x : Nat × Nat} (hx : x ∈ s.live)
    (hc : s.slabs.caches x.1 = some c) : x.2 ∈ c.slots (objToSlab x.2) := by
  have hcache := h.caches x.1 c hc
  have hslab : objToSlab x.2 ∈ c.slabs := hcache.listed.mem_iff.mpr (mem_slabsOf.mpr (h.live x hx))
  exact (hcache.slabs _ hslab).live_slots (mem_objectsIn.mpr ⟨⟨x.1, hx⟩, rfl⟩)

theorem Sound.slot_apart (h : Sound J s) (hc : s.slabs.caches cache = some c) (hback : (cache, slab) ∈ s.backed)
    {obj : Nat} (hobj : obj ∈ c.slots slab) (hfree : obj ∉ objectsIn s.live slab) {x : Nat × Nat}
    (hx : x ∈ s.live) {d : KmemCache} (hd : s.slabs.caches x.1 = some d) :
    obj + c.objectSize ≤ x.2 ∨ x.2 + d.objectSize ≤ obj := by
  have hxslot := h.live_slot hx hd
  have hbounds := (h.caches cache c hc).fits.bounds hobj
  have hxbounds := (h.caches x.1 d hd).fits.bounds hxslot
  by_cases hsame : objToSlab x.2 = slab
  · have heq := List.inj_on_of_nodup_map h.distinct (h.live x hx) hback hsame
    have howner : x.1 = cache := (Prod.mk.inj heq).1
    rw [howner, hc] at hd
    cases hd
    rw [hsame] at hxslot
    refine slots_apart hobj hxslot ?_
    rintro rfl
    exact hfree (mem_objectsIn.mpr ⟨⟨x.1, hx⟩, hsame⟩)
  · have haligned := (h.pages _ hback).aligned
    have haligned' := (h.pages _ (h.live x hx)).aligned
    dsimp only at haligned haligned'
    omega

/-- The second half of `kmem_cache_alloc`. -/
theorem Sound.allocFrom (h : Sound J s) (hc : s.slabs.caches cache = some c)
    (hsource : c.source.head? = some slab) :
    ∃ obj s', Slab.allocFrom s.slabs cache = some (obj, s') ∧ obj ≠ 0 ∧
      Sound J ⟨s', (cache, obj) :: s.live, s.backed⟩ ∧
      Delivered s cache c obj ⟨s', (cache, obj) :: s.live, s.backed⟩ := by
  have hmem := List.mem_of_mem_head? hsource
  have hslab := source_mem hmem
  have hcache := h.caches cache c hc
  have hback := h.backed hc hslab
  have hpage := h.pages _ hback
  have hnodup := h.nodup hc
  obtain ⟨-, hnpart, hnfree⟩ := slabs_nodup_parts hnodup
  have hok := hcache.slabs slab hslab
  have hroom : (objectsIn s.live slab).length < c.objectsPerSlab := by
    rw [← hok.inuse]
    refine hcache.room slab ?_
    unfold KmemCache.source at hmem
    split at hmem
    · exact List.mem_append_right _ hmem
    · exact List.mem_append_left _ hmem
  obtain ⟨obj, m', hpop, hne, hok₁, hout⟩ := popObject_spec hok hcache.fits hpage hroom
  have hslot := hok₁.live_slots List.mem_cons_self
  have hinslab := hcache.fits.objToSlab hpage hslot
  have hok' : SlabOk m' cache c slab (objectsIn ((cache, obj) :: s.live) slab) := by
    rw [objectsIn_cons, if_pos hinslab]
    exact hok₁
  have hrest : ∀ other, other ≠ slab →
      (objectsIn s.live other).Perm (objectsIn ((cache, obj) :: s.live) other) := by
    intro other hother
    rw [objectsIn_cons_other _ (hinslab.symm ▸ hother)]
  have hlive : ∀ x ∈ (cache, obj) :: s.live, (x.1, objToSlab x.2) ∈ s.backed := by
    intro x hx
    rcases List.mem_cons.mp hx with rfl | hx
    · dsimp only
      rw [hinslab]
      exact hback
    · exact h.live x hx
  have hnew : obj ∉ objectsIn s.live slab := (List.nodup_cons.mp (hok₁.live_nodup hcache.fits)).1
  have hdelivered : ∀ s' : Slabs σ, s'.mem = m' →
      Delivered s cache c obj ⟨s', (cache, obj) :: s.live, s.backed⟩ := by
    intro s' hmem'
    obtain ⟨m₀, hzero, hctor⟩ := popObject_cleared hpop
    refine ⟨hlive _ List.mem_cons_self, slot_aligned hcache.fits hcache.stride hpage hslot, ?_,
      fun x hx d hd => h.slot_apart hc hback hslot hnew hx hd, m₀, hzero, hmem'.trans hctor⟩
    rw [hinslab]
    exact hcache.fits.bounds hslot
  rw [allocFrom_eq hc hsource hpop]
  by_cases hfull : slabInuse m' slab = c.objectsPerSlab
  · rw [if_pos hfull]
    refine ⟨obj, _, rfl, hne, h.update hc hslab ⟨rfl, rfl, rfl, rfl⟩ (relisted hnodup hslab (perm_full _ _)) hout hok'
      hrest hlive ?_, hdelivered _ rfl⟩
    intro x hx
    rcases List.mem_append.mp hx with hx | hx
    · obtain ⟨hxne, hx⟩ := hnpart.mem_erase_iff.mp hx
      exact Or.inl ⟨hxne, List.mem_append_left _ hx⟩
    · obtain ⟨hxne, hx⟩ := hnfree.mem_erase_iff.mp hx
      exact Or.inl ⟨hxne, List.mem_append_right _ hx⟩
  · -- not full: the slab stays where it was, and there is still a free object
    rw [if_neg hfull]
    have hlt : slabInuse m' slab < c.objectsPerSlab := by
      have hle := hok₁.length_le
      rw [← hok₁.inuse] at hle
      omega
    refine ⟨obj, _, rfl, hne, ?_, hdelivered _ rfl⟩
    rw [← setCache_self hc m']
    refine h.update hc hslab ⟨rfl, rfl, rfl, rfl⟩ (List.Perm.refl _) hout hok' hrest hlive ?_
    intro x hx
    by_cases heq : x = slab
    · exact Or.inr ⟨heq, hlt⟩
    · exact Or.inl ⟨heq, hx⟩

theorem nextSlab_page {virt : Nat} (h : SlabPage virt) : SlabPage (wrap (virt + 4096)) := by
  have haligned := h.aligned
  unfold wrap
  exact ⟨by omega, by omega⟩

theorem Sound.setEnv (h : Sound J s) {env : σ} {next : Nat} (hnext : SlabPage next)
    (hJ : J {a | s.slabs.caches a ≠ none} {p | p ∈ s.backed.map Prod.snd} env) :
    Sound J ⟨{ s.slabs with env, nextSlabVirt := next }, s.live, s.backed⟩ := by
  refine ⟨?_, h.known, h.distinct, h.pages, hnext, h.live, hJ⟩
  intro k d hd
  exact (h.caches k d hd).keep (fun x _ => Same.refl _ _ _) (fun x _ => List.Perm.refl _) rfl

/-- A slab at the next address. -/
theorem Sound.addSlab (h : Sound J s) (hc : s.slabs.caches cache = some c)
    (hfresh : s.slabs.nextSlabVirt ∉ s.backed.map Prod.snd) {env : σ}
    (hJ : J {a | s.slabs.caches a ≠ none} (insert s.slabs.nextSlabVirt {p | p ∈ s.backed.map Prod.snd}) env) :
    Sound J
      ⟨{ s.slabs with
          env, nextSlabVirt := wrap (s.slabs.nextSlabVirt + 4096)
          mem := buildSlab s.slabs.mem cache c s.slabs.nextSlabVirt }.setCache cache
          { c with slabsPartial := c.slabsPartial ++ [s.slabs.nextSlabVirt] },
        s.live, (cache, s.slabs.nextSlabVirt) :: s.backed⟩ := by
  have hcache := h.caches cache c hc
  obtain ⟨hbuilt, hout⟩ := buildSlab_spec hcache.fits h.next hcache.word s.slabs.mem
  have hnone : objectsIn s.live s.slabs.nextSlabVirt = [] := by
    refine List.eq_nil_iff_forall_not_mem.mpr fun obj hobj => ?_
    obtain ⟨⟨k, hk⟩, hslab⟩ := mem_objectsIn.mp hobj
    have hback := h.live _ hk
    dsimp only at hback
    rw [hslab] at hback
    exact hfresh (List.mem_map.mpr ⟨_, hback, rfl⟩)
  have hsame : ∀ x ∈ s.backed,
      Same s.slabs.mem (buildSlab s.slabs.mem cache c s.slabs.nextSlabVirt) x.2 4096 := by
    intro x hx y _ _
    have haligned := (h.pages x hx).aligned
    have haligned' := h.next.aligned
    have hne : x.2 ≠ s.slabs.nextSlabVirt := fun heq => hfresh (heq ▸ List.mem_map_of_mem hx)
    exact hout y (by omega)
  refine ⟨?_, ?_, List.nodup_cons.mpr ⟨hfresh, h.distinct⟩, ?_, nextSlab_page h.next, ?_, ?_⟩
  · intro k d hd
    have hd' : Function.update s.slabs.caches cache
      (some { c with slabsPartial := c.slabsPartial ++ [s.slabs.nextSlabVirt] }) k = some d := hd
    by_cases hk : k = cache
    · subst hk
      rw [Function.update_self] at hd'
      cases hd'
      have hgeo : SameGeometry c { c with slabsPartial := c.slabsPartial ++ [s.slabs.nextSlabVirt] } :=
        ⟨rfl, rfl, rfl, rfl⟩
      have hperm : KmemCache.slabs { c with slabsPartial := c.slabsPartial ++ [s.slabs.nextSlabVirt] }
          |>.Perm (s.slabs.nextSlabVirt :: c.slabs) := by
        simp only [KmemCache.slabs, List.append_assoc, List.singleton_append]
        rw [← List.append_assoc, ← List.append_assoc]
        exact List.perm_middle
      refine ⟨hgeo.fits hcache.fits, hcache.stride, hcache.pos, hcache.word, ?_, ?_, ?_⟩
      · refine hperm.trans ?_
        simp only [slabsOf, List.filter_cons, decide_true, if_true, List.map_cons]
        exact hcache.listed.cons _
      · intro x hx
        by_cases heq : x = s.slabs.nextSlabVirt
        · subst heq
          exact hbuilt.inuse.trans_lt hcache.fits.pos
        · have hx' : x ∈ c.slabsPartial ++ c.slabsFree := by
            simp only [List.mem_append, List.mem_singleton, heq, or_false] at hx
            exact List.mem_append.mpr hx
          have hin := hsame _ (h.backed hc (List.mem_append_right _ hx'))
          have hcount : slabInuse (buildSlab s.slabs.mem k c s.slabs.nextSlabVirt) x =
              slabInuse s.slabs.mem x := load32_congr (hin.mono (by dsimp only; omega) (by dsimp only; omega))
          exact hcount.trans_lt (hcache.room x hx')
      · intro x hx
        rcases List.mem_cons.mp (hperm.mem_iff.mp hx) with rfl | hx
        · dsimp only
          rw [hnone]
          exact hbuilt.congr_cache hgeo
        · have hkept := (hcache.slabs x hx).congr_page hcache.fits (hsame _ (h.backed hc hx))
          exact hkept.congr_cache hgeo
    · rw [Function.update_of_ne hk] at hd'
      refine (h.caches k d hd').keep (fun x hx => hsame _ (h.backed hd' hx))
        (fun x _ => List.Perm.refl _) ?_
      simp only [slabsOf, List.filter_cons, decide_eq_true_eq, if_neg (Ne.symm hk)]
  · intro x hx
    rcases List.mem_cons.mp hx with rfl | hx
    · simp [Slabs.setCache]
    · by_cases hk : x.1 = cache
      · simp [Slabs.setCache, hk]
      · simpa [Slabs.setCache, Function.update_of_ne hk] using h.known x hx
  · intro x hx
    rcases List.mem_cons.mp hx with rfl | hx
    · exact h.next
    · exact h.pages x hx
  · exact fun x hx => List.mem_cons_of_mem _ (h.live x hx)
  · have hpages : {p | p ∈ ((cache, s.slabs.nextSlabVirt) :: s.backed).map Prod.snd} =
        insert s.slabs.nextSlabVirt {p | p ∈ s.backed.map Prod.snd} := by
      ext p
      simp only [List.map_cons, List.mem_cons, Set.mem_ofPred_eq, Set.mem_insert_iff]
    dsimp only [Slabs.setCache]
    rw [caches_update hc, hpages]
    exact hJ

end Alloc

section Calls

variable {ops : MmOps σ} {J : Set Nat → Set Nat → σ → Prop} {s : Client σ} {cache : Nat} {c : KmemCache}

theorem Sound.newSlab (h : Sound J s) (hops : Supplies ops J) (hc : s.slabs.caches cache = some c) :
    (∃ s', Slab.newSlab ops s.slabs cache = some (false, s') ∧ Sound J ⟨s', s.live, s.backed⟩) ∨
      ∃ s', Slab.newSlab ops s.slabs cache = some (true, s') ∧
        s'.caches = Function.update s.slabs.caches cache
          (some { c with slabsPartial := c.slabsPartial ++ [s.slabs.nextSlabVirt] }) ∧
        Sound J ⟨s', s.live, (cache, s.slabs.nextSlabVirt) :: s.backed⟩ := by
  obtain ⟨backing, env, hrun, hmapped, hother⟩ := hops.back _ h.next h.env
  unfold Slab.newSlab
  dsimp only
  rw [hrun]
  simp only [Option.bind_eq_bind, Option.bind_some]
  cases backing with
  | noFrame => exact Or.inl ⟨_, rfl, h.setEnv h.next (hother nofun)⟩
  | refused => exact Or.inl ⟨_, rfl, h.setEnv (nextSlab_page h.next) (hother nofun)⟩
  | mapped =>
      obtain ⟨hfresh, hJ⟩ := hmapped rfl
      right
      simp only [hc, Option.bind_some]
      exact ⟨_, rfl, rfl, h.addSlab hc hfresh hJ⟩

/-- `kmem_cache_alloc` comes back with nothing, or with an object as it should be. -/
theorem Sound.alloc (h : Sound J s) (hops : Supplies ops J) (hc : s.slabs.caches cache = some c) :
    ∃ obj s', kmemCacheAlloc ops s.slabs cache = some (obj, s') ∧
      Sound J ⟨s', track s.live cache obj, grown s cache obj⟩ ∧
      (obj ≠ 0 → Delivered s cache c obj ⟨s', track s.live cache obj, grown s cache obj⟩) := by
  have hcache := h.caches cache c hc
  unfold kmemCacheAlloc grown
  rw [if_neg hcache.pos, hc]
  simp only [Option.bind_eq_bind, Option.bind_some]
  cases hsource : c.source with
  | nil =>
      have hpart : c.slabsPartial = [] := by
        unfold KmemCache.source at hsource
        split at hsource
        · exact List.isEmpty_iff.mp ‹_›
        · exact hsource
      simp only [List.isEmpty_nil, if_true]
      rcases h.newSlab hops hc with ⟨s', hrun, hsound⟩ | ⟨s', hrun, hcaches, hsound⟩
      · rw [hrun]
        refine ⟨0, s', rfl, ?_, fun hne => absurd rfl hne⟩
        simpa [track] using hsound
      · rw [hrun]
        rw [hpart, List.nil_append] at hcaches
        have hc' : s'.caches cache = some { c with slabsPartial := [s.slabs.nextSlabVirt] } := by
          rw [hcaches, Function.update_self]
        obtain ⟨obj, s₂, hrun₂, hne, hsound₂, hdelivered⟩ := hsound.allocFrom hc' rfl
        refine ⟨obj, s₂, hrun₂, ?_, fun _ => ?_⟩
        · simpa [track, hne] using hsound₂
        · obtain ⟨hslab, haligned, hinside, hapart, hcleared⟩ := hdelivered
          simp only [track, if_neg hne, true_and, if_pos hne]
          refine ⟨hslab, haligned, hinside, ?_, hcleared⟩
          -- the new slab changed one record, and not the geometry in it
          intro x hx d hd
          by_cases hk : x.1 = cache
          · rw [hk, hc] at hd
            cases hd
            exact hapart x hx { c with slabsPartial := [s.slabs.nextSlabVirt] } (by rw [hk]; exact hc')
          · exact hapart x hx d (by dsimp only; rw [hcaches, Function.update_of_ne hk, hd])
  | cons slab rest =>
      simp only [List.isEmpty_cons, Bool.false_eq_true, if_false, false_and]
      obtain ⟨obj, s', hrun, hne, hsound, hdelivered⟩ := h.allocFrom hc (by rw [hsource]; rfl)
      refine ⟨obj, s', hrun, ?_, fun _ => ?_⟩
      · simpa [track, hne] using hsound
      · simpa [track, hne] using hdelivered

/-- `kmem_cache_free` of a live object comes back. -/
theorem Sound.free (h : Sound J s) {obj : Nat} (hobj : (cache, obj) ∈ s.live) :
    ∃ s', kmemCacheFree s.slabs cache obj = some s' ∧
      Sound J ⟨s', s.live.erase (cache, obj), s.backed⟩ := by
  have hback := h.live _ hobj
  obtain ⟨c, hc⟩ := Option.ne_none_iff_exists'.mp (h.known _ hback)
  have hcache := h.caches cache c hc
  have hslab : objToSlab obj ∈ c.slabs := hcache.listed.mem_iff.mpr (mem_slabsOf.mpr hback)
  have hnodup := h.nodup hc
  obtain ⟨-, hnpart, hnfree⟩ := slabs_nodup_parts hnodup
  have hok := hcache.slabs _ hslab
  have hin : obj ∈ objectsIn s.live (objToSlab obj) := mem_objectsIn.mpr ⟨⟨cache, hobj⟩, rfl⟩
  have hobjpos : obj ≠ 0 := by
    have hbounds := hcache.fits.bounds (hok.live_slots hin)
    omega
  obtain ⟨hinuse, hpushed, hout⟩ := hok.push hcache.fits (h.pages _ hback) hin
  have hlen : 0 < (objectsIn s.live (objToSlab obj)).length := List.length_pos_of_mem hin
  have hword : (objectsIn s.live (objToSlab obj)).length < 2 ^ 32 := by
    rw [← hok.inuse]
    exact load32_lt _ _
  have hle := hok.length_le
  obtain ⟨hself, hrest⟩ := objectsIn_erase hobj
  have hcount := hpushed.inuse
  rw [List.length_erase_of_mem hin] at hcount
  generalize hm : setInuse (pushObject s.slabs.mem (objToSlab obj) obj) (objToSlab obj)
    ((objectsIn s.live (objToSlab obj)).length - 1) = m' at hpushed hout hcount
  have hok' : SlabOk m' cache c (objToSlab obj) (objectsIn (s.live.erase (cache, obj)) (objToSlab obj)) :=
    hpushed.perm hself
  have hlive : ∀ x ∈ s.live.erase (cache, obj), (x.1, objToSlab x.2) ∈ s.backed :=
    fun x hx => h.live x (List.mem_of_mem_erase hx)
  -- whatever list the slab goes to, it has a free object now
  have hroom : ∀ x, x ∈ c.slabsPartial.erase (objToSlab obj) ∨ x ∈ c.slabsFree.erase (objToSlab obj) ∨
      x = objToSlab obj → x ≠ objToSlab obj ∧ x ∈ c.slabsPartial ++ c.slabsFree ∨
        x = objToSlab obj ∧ slabInuse m' (objToSlab obj) < c.objectsPerSlab := by
    rintro x (hx | hx | rfl)
    · obtain ⟨hxne, hx⟩ := hnpart.mem_erase_iff.mp hx
      exact Or.inl ⟨hxne, List.mem_append_left _ hx⟩
    · obtain ⟨hxne, hx⟩ := hnfree.mem_erase_iff.mp hx
      exact Or.inl ⟨hxne, List.mem_append_right _ hx⟩
    · exact Or.inr ⟨rfl, by omega⟩
  have hsub : wsub (objectsIn s.live (objToSlab obj)).length 1 =
      (objectsIn s.live (objToSlab obj)).length - 1 := wsub_of_le hword hlen
  unfold kmemCacheFree
  rw [if_neg (not_or.mpr ⟨hcache.pos, hobjpos⟩)]
  simp only [hok.owner, ne_eq, not_true_eq_false, if_false, hinuse, if_neg hlen.ne', hsub, hm,
    Option.bind_eq_bind, hc, Option.bind_some]
  by_cases hzero : slabInuse m' (objToSlab obj) = 0
  · rw [if_pos hzero]
    refine ⟨_, rfl, h.update hc hslab ⟨rfl, rfl, rfl, rfl⟩ (relisted hnodup hslab (perm_free _ _)) hout hok' hrest
      hlive fun x hx => hroom x ?_⟩
    simpa [KmemCache.unlink] using hx
  · rw [if_neg hzero]
    refine ⟨_, rfl, h.update hc hslab ⟨rfl, rfl, rfl, rfl⟩ (relisted hnodup hslab (perm_relisted _ _)) hout hok' hrest
      hlive fun x hx => hroom x ?_⟩
    simp only [KmemCache.unlink, List.append_assoc, List.mem_append, List.mem_singleton] at hx
    rcases hx with hx | hx | hx
    · exact Or.inl hx
    · exact Or.inr (Or.inr hx)
    · exact Or.inr (Or.inl hx)

theorem Sound.write (h : Sound J s) (hc : s.slabs.caches cache = some c) {obj i : Nat}
    (hobj : (cache, obj) ∈ s.live) (hi : i < c.objectSize) (v : BitVec 8) :
    Sound J ⟨{ s.slabs with mem := store8 s.slabs.mem (obj + i) v }, s.live, s.backed⟩ := by
  have hcache := h.caches cache c hc
  have hslab : objToSlab obj ∈ c.slabs := hcache.listed.mem_iff.mpr (mem_slabsOf.mpr (h.live _ hobj))
  have hok := hcache.slabs _ hslab
  have hin : obj ∈ objectsIn s.live (objToSlab obj) := mem_objectsIn.mpr ⟨⟨cache, hobj⟩, rfl⟩
  obtain ⟨hlo, hhi⟩ := hcache.fits.bounds (hok.live_slots hin)
  have hout : ∀ x, x < objToSlab obj ∨ objToSlab obj + 4096 ≤ x →
      store8 s.slabs.mem (obj + i) v x = s.slabs.mem x := by
    intro x hx
    rw [store8, if_neg (by omega)]
  have hwritten := hok.write hcache.fits hin (store8 s.slabs.mem (obj + i) v) fun x hx => by
    rw [store8, if_neg (by omega)]
  rw [← setCache_self hc]
  refine h.update hc hslab ⟨rfl, rfl, rfl, rfl⟩ (List.Perm.refl _) hout hwritten
    (fun _ _ => List.Perm.refl _) h.live fun x hx => ?_
  by_cases heq : x = objToSlab obj
  · refine Or.inr ⟨heq, ?_⟩
    rw [hwritten.inuse, ← hok.inuse, ← heq]
    exact hcache.room x hx
  · exact Or.inl ⟨heq, hx⟩

/-- A cache without slabs joins. -/
theorem Sound.addCache (h : Sound J s) (hnone : s.slabs.caches cache = none) (hpos : cache ≠ 0)
    (hword : cache < 2 ^ 32) (hfit : Fits c) (hstride : c.objectSize % c.align = 0) (hempty : c.slabs = [])
    {env : σ} (kmemCaches : List Nat)
    (hJ : J (insert cache {a | s.slabs.caches a ≠ none}) {p | p ∈ s.backed.map Prod.snd} env) :
    Sound J ⟨{ s.slabs with env, kmemCaches }.setCache cache c, s.live, s.backed⟩ := by
  have hnew : slabsOf s.backed cache = [] := List.eq_nil_iff_forall_not_mem.mpr fun x hx =>
    h.known _ (mem_slabsOf.mp hx) hnone
  have hin : ∀ x, x ∉ c.slabs := by
    intro x
    rw [hempty]
    exact List.not_mem_nil
  refine ⟨?_, ?_, h.distinct, h.pages, h.next, h.live, ?_⟩
  · intro k d hd
    have hd' : Function.update s.slabs.caches cache (some c) k = some d := hd
    by_cases hk : k = cache
    · subst hk
      rw [Function.update_self] at hd'
      cases hd'
      refine ⟨hfit, hstride, hpos, hword, ?_, fun x hx => absurd (List.mem_append_right _ hx) (hin x),
        fun x hx => absurd hx (hin x)⟩
      rw [hempty, hnew]
    · rw [Function.update_of_ne hk] at hd'
      exact (h.caches k d hd').keep (fun x _ => Same.refl _ _ _) (fun x _ => List.Perm.refl _) rfl
  · intro x hx
    by_cases hk : x.1 = cache
    · simp [Slabs.setCache, hk]
    · simpa [Slabs.setCache, Function.update_of_ne hk] using h.known x hx
  · have hset : {a | Function.update s.slabs.caches cache (some c) a ≠ none} =
        insert cache {a | s.slabs.caches a ≠ none} := by
      ext a
      by_cases ha : a = cache
      · simp [ha]
      · simp [ha]
    dsimp only [Slabs.setCache]
    rw [hset]
    exact hJ

/-- `kmem_cache_create` of a cache that fits its pages. -/
theorem Sound.create (h : Sound J s) (hops : Supplies ops J) {name : Option Nat} {size align : Nat}
    {ctor : Option (Mem → Nat → Mem)} {r : Nat} {s' : Slabs σ}
    (hrun : kmemCacheCreate ops s.slabs name size align ctor = some (r, s'))
    (hfits : Fitting ⟨s', s.live, s.backed⟩) : Sound J ⟨s', s.live, s.backed⟩ := by
  unfold kmemCacheCreate at hrun
  cases name with
  | none =>
      cases hrun
      exact h
  | some len =>
      by_cases hbad : size = 0 ∨ align < slabMinAlign ∨ align &&& (align - 1) ≠ 0
      · simp only [if_pos hbad] at hrun
        cases hrun
        exact h
      simp only [if_neg hbad] at hrun
      rw [not_or, not_or, not_not, not_lt] at hbad
      obtain ⟨p, env, hmalloc, hcase⟩ := (hops.allocator _).kmalloc (wrap (sizeofCache + (len + 1))) h.env
      simp only [hmalloc, Option.bind_eq_bind, Option.bind_some] at hrun
      rcases hcase with ⟨rfl, hJ⟩ | ⟨hp, hword, hfresh, hJ⟩
      · rw [if_pos rfl] at hrun
        cases hrun
        exact h.setEnv h.next hJ
      rw [if_neg hp] at hrun
      by_cases hsize : alignUp size align = 0
      · rw [if_pos hsize] at hrun
        cases hrun
      rw [if_neg hsize] at hrun
      by_cases hcount : wsub 4096 (firstObjOff align) / alignUp size align = 0
      · rw [if_pos hcount] at hrun
        cases hrun
        refine h.setEnv h.next ?_
        have hfree := (hops.allocator _).kfree _ env p hJ (Set.mem_insert ..)
        rwa [Set.insert_sdiff_self_of_notMem hfresh] at hfree
      · rw [if_neg hcount] at hrun
        have hnone : s.slabs.caches p = none := by
          by_contra hsome
          exact hfresh hsome
        cases hrun
        obtain ⟨hgeo, hctor⟩ := hfits r
          ⟨alignUp size align, align, ctor, wsub 4096 (firstObjOff align) / alignUp size align, [], [], []⟩
          (Function.update_self ..)
        refine h.addCache hnone hp hword (fits_of_create hbad.2.1 hbad.2.2 hgeo.align hctor hsize hcount) ?_
          rfl _ hJ
        exact Nat.mod_eq_zero_of_dvd (Dvd.intro_left _ rfl)

theorem Sound.step (h : Sound J s) (hops : Supplies ops J) {op : SlabOp} {s' : Client σ}
    (hstep : FitStep ops s op s') : Sound J s' := by
  obtain ⟨⟨hop, r, hrun⟩, hshrink, hfits⟩ := hstep
  cases op with
  | create name size align ctor =>
      obtain ⟨⟨cache, t⟩, hcreate, heq⟩ := Option.bind_eq_some_iff.mp hrun
      cases heq
      exact h.create hops hcreate hfits
  | alloc cache =>
      obtain ⟨c, hc⟩ := Option.ne_none_iff_exists'.mp hop
      obtain ⟨obj, t, hrun', hsound, -⟩ := h.alloc hops hc
      rw [SlabOp.exec, hrun'] at hrun
      cases hrun
      exact hsound
  | free cache obj =>
      obtain ⟨t, hrun', hsound⟩ := h.free hop
      rw [SlabOp.exec, hrun'] at hrun
      cases hrun
      exact hsound
  | shrink cache => exact absurd rfl (hshrink cache)
  | write cache obj i v =>
      obtain ⟨hobj, c, hc, hi⟩ := hop
      cases hrun
      exact h.write hc hobj hi v

theorem Sound.init {mem : Mem} {env : σ} (h : J ∅ ∅ env) : Sound J (Client.init mem env) := by
  have hstart : SlabPage slabVirtStart := ⟨by decide, by decide⟩
  refine ⟨nofun, nofun, List.nodup_nil, nofun, hstart, nofun, ?_⟩
  have hcaches : {a : Nat | (Client.init mem env).slabs.caches a ≠ none} = ∅ := by
    ext a
    simp [Client.init, slabInit]
  have hpages : {p : Nat | p ∈ (Client.init mem env).backed.map Prod.snd} = ∅ := by
    ext p
    simp [Client.init]
  rw [hcaches, hpages]
  exact h

theorem Sound.freeList (h : Sound J s) {slab : Nat} (hc : s.slabs.caches cache = some c)
    (hback : (cache, slab) ∈ s.backed) : ∃ free, FreeList s c slab free := by
  have hcache := h.caches cache c hc
  have hslab : slab ∈ c.slabs := hcache.listed.mem_iff.mpr (mem_slabsOf.mpr hback)
  have hok := hcache.slabs slab hslab
  obtain ⟨free, hthread, hperm⟩ := hok.objects
  obtain ⟨hnodup, -, hcross⟩ := List.nodup_append.mp (hperm.nodup_iff.mpr hcache.fits.slots_nodup)
  refine ⟨free, hthread, hnodup, fun o ho => hperm.mem_iff.mp (List.mem_append_left _ ho), ?_, ?_⟩
  · have hlen := hperm.length_eq
    rw [List.length_append, length_slots] at hlen
    rw [hok.inuse]
    exact hlen
  · intro x hx hfree
    have hslot := hperm.mem_iff.mp (List.mem_append_left _ hfree)
    have hin := hcache.fits.objToSlab (h.pages _ hback) hslot
    exact hcross x.2 hfree x.2 (mem_objectsIn.mpr ⟨⟨x.1, hx⟩, hin⟩) rfl

end Calls

/-- In every state of a run on caches that fit their pages: the free list of every slab is
a list of distinct unused slots of the length that the counter leaves; an allocation never
runs into the assertion, and what it returns is an aligned object inside its slab that
overlaps no live object and was cleared before it was constructed; and freeing a live
object comes back. -/
theorem free_lists_run {ops : MmOps σ} {J : Set Nat → Set Nat → σ → Prop} (hops : Supplies ops J)
    {mem : Mem} {env : σ} (henv : J ∅ ∅ env) {s : Client σ}
    (run : Transition.Run (FitStep ops) (Client.init mem env) s) :
    (∀ cache c slab, s.slabs.caches cache = some c → (cache, slab) ∈ s.backed →
      ∃ free, FreeList s c slab free) ∧
    (∀ cache c, s.slabs.caches cache = some c → ∃ obj s',
      (SlabOp.alloc cache).exec ops s = some (obj, s') ∧ (obj ≠ 0 → Delivered s cache c obj s')) ∧
    ∀ cache obj, (cache, obj) ∈ s.live → ∃ s', (SlabOp.free cache obj).exec ops s = some (0, s') := by
  have hsound : Sound J s := run.invariant (fun _ _ _ hstep h => h.step hops hstep) (Sound.init henv)
  refine ⟨fun cache c slab hc hback => hsound.freeList hc hback, ?_, ?_⟩
  · intro cache c hc
    obtain ⟨obj, t, hrun, -, hdelivered⟩ := hsound.alloc hops hc
    exact ⟨obj, _, by rw [SlabOp.exec, hrun]; rfl, hdelivered⟩
  · intro cache obj hobj
    obtain ⟨t, hrun, -⟩ := hsound.free hobj
    exact ⟨_, by rw [SlabOp.exec, hrun]; rfl⟩

structure PagedOk (A P : Set Nat) (s : PagedEnv) : Prop where
  struct : 0 < s.nextStruct
  frame : 0 < s.nextFrame
  below : ∀ a ∈ A, a < s.nextStruct
  mapped : ∀ p ∈ P, (s.pages.lookup p).isSome = true

theorem pagedStart_ok : PagedOk ∅ ∅ pagedStart :=
  ⟨by decide, by decide, fun _ ha => absurd ha (Set.notMem_empty _), fun _ hp => absurd hp (Set.notMem_empty _)⟩

theorem pagedOps_supplies : Supplies pagedOps PagedOk where
  allocator := by
    refine fun P => ⟨?_, fun A s p h _ => ⟨h.struct, h.frame, fun a ha => h.below a ha.1, h.mapped⟩⟩
    intro A s n h
    by_cases hlt : s.nextStruct < 2 ^ 32
    · refine ⟨s.nextStruct, { s with nextStruct := s.nextStruct + 32 }, if_pos hlt,
        Or.inr ⟨h.struct.ne', hlt, fun hmem => lt_irrefl _ (h.below _ hmem), ?_⟩⟩
      refine ⟨Nat.lt_add_right 32 h.struct, h.frame, ?_, h.mapped⟩
      rintro a (rfl | ha)
      · exact Nat.lt_add_of_pos_right (by decide)
      · exact Nat.lt_add_right 32 (h.below a ha)
    · exact ⟨0, s, if_neg hlt, Or.inl ⟨rfl, h⟩⟩
  back := by
    rintro A P s virt - h
    have hne := h.frame.ne'
    by_cases hlt : s.nextFrame < 2 ^ 32
    · have hframe : pagedOps.pmmAllocPage s =
        (s.nextFrame, { s with nextFrame := s.nextFrame + 4096 }) := if_pos hlt
      cases hpage : s.pages.lookup virt with
      | some f =>
          refine ⟨.refused, { s with nextFrame := s.nextFrame + 4096 }, ?_, nofun, fun _ => ?_⟩
          · rw [backSlab, hframe]
            simp [hne, pagedOps, hpage]
          · exact ⟨h.struct, Nat.lt_add_right 4096 h.frame, h.below, h.mapped⟩
      | none =>
          refine ⟨.mapped, { s with nextFrame := s.nextFrame + 4096, pages := (virt, s.nextFrame) :: s.pages }, ?_,
            fun _ => ⟨fun hin => ?_, h.struct, Nat.lt_add_right 4096 h.frame, h.below, ?_⟩,
            fun hmapped => absurd rfl hmapped⟩
          · rw [backSlab, hframe]
            simp [hne, pagedOps, hpage]
          · have hsome := h.mapped virt hin
            rw [hpage] at hsome
            cases hsome
          · rintro p (rfl | hp)
            · simp
            · rw [List.lookup_cons]
              split
              · rfl
              · exact h.mapped p hp
    · have hframe : pagedOps.pmmAllocPage s = (0, s) := if_neg hlt
      exact ⟨.noFrame, s, by simp [backSlab, hframe], nofun, fun _ => h⟩

/-- Three objects of a cache with two to a slab fill one slab and begin another; the second one is
freed, and the next object comes from the second slab. -/
theorem free_lists_run_second_slab :
    ∃ s c s', Transition.Run (FitStep pagedOps) (Client.init (fun _ => 0#8) pagedStart) s ∧
      s.live = [(0xD0000014, 0xE00017E8), (0xD0000014, 0xE00007E8)] ∧ s.slabs.caches 0xD0000014 = some c ∧
      (SlabOp.alloc 0xD0000014).exec pagedOps s = some (0xE0001018, s') ∧
      Delivered s 0xD0000014 c 0xE0001018 s' := by
  have h₅ : (pagedRun [.free 0xD0000014 0xE0000018, .alloc 0xD0000014, .alloc 0xD0000014, .alloc 0xD0000014,
      .create (some 3) 2000 8 none]).map (fun s => (s.live, (s.slabs.caches 0xD0000014).isSome,
        ((SlabOp.alloc 0xD0000014).exec pagedOps s).map Prod.fst)) =
      some ([(0xD0000014, 0xE00017E8), (0xD0000014, 0xE00007E8)], true, some 0xE0001018) := by decide +kernel
  have h₄ : (pagedRun [.alloc 0xD0000014, .alloc 0xD0000014, .alloc 0xD0000014,
      .create (some 3) 2000 8 none]).map (fun s => s.live) =
      some [(0xD0000014, 0xE00017E8), (0xD0000014, 0xE0000018), (0xD0000014, 0xE00007E8)] := by decide +kernel
  have h₁ : (pagedRun [.create (some 3) 2000 8 none]).map (fun s => (s.slabs.caches 0xD0000014).isSome) =
      some true := by decide +kernel
  obtain ⟨s₅, hs₅, hsum₅⟩ := Option.map_eq_some_iff.mp h₅
  obtain ⟨s₄, r₅, hs₄, hstep₅⟩ := Transition.execAll_cons hs₅
  obtain ⟨s₃, r₄, hs₃, hstep₄⟩ := Transition.execAll_cons hs₄
  obtain ⟨s₂, r₃, hs₂, hstep₃⟩ := Transition.execAll_cons hs₃
  obtain ⟨s₁, r₂, hs₁, hstep₂⟩ := Transition.execAll_cons hs₂
  obtain ⟨s₀, r₁, hs₀, hstep₁⟩ := Transition.execAll_cons hs₁
  cases hs₀
  have hgeo : Geometry (created 2000 8 none) := ⟨by decide, by decide, by decide⟩
  have hcreated : s₁.slabs.caches 0xD0000014 ≠ none := by
    rw [pagedRun, hs₁] at h₁
    exact Option.isSome_iff_ne_none.mp (Option.some.inj h₁)
  have hfreed : (0xD0000014, 0xE0000018) ∈ s₄.live := by
    rw [pagedRun, hs₄, Option.map_some] at h₄
    rw [Option.some.inj h₄]
    decide
  have hreached₂ := (reached_init.create hstep₁ hgeo (ctorOk_none _)).alloc hstep₂ hcreated
  have hreached₃ := hreached₂.alloc hstep₃ (alloc_known hstep₂ hcreated)
  have hreached₄ := hreached₃.alloc hstep₄ (alloc_known hstep₃ (alloc_known hstep₂ hcreated))
  have hrun := (hreached₄.free hstep₅ hfreed).2
  obtain ⟨hlive, hknown, hobj⟩ : s₅.live = _ ∧ _ ∧ _ := by simpa only [Prod.mk.injEq] using hsum₅
  obtain ⟨c, hc⟩ := Option.isSome_iff_exists.mp hknown
  obtain ⟨obj, s', halloc, hdelivered⟩ := (free_lists_run pagedOps_supplies pagedStart_ok hrun).2.1 0xD0000014 c hc
  rw [halloc] at hobj
  obtain rfl : obj = 0xE0001018 := Option.some.inj hobj
  exact ⟨s₅, c, s', hrun, hlive, hc, halloc, hdelivered (by decide)⟩

end Frostix.Slab
