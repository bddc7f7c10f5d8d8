import Frostix.Slab.Objects

/-!
Caches with their clients. Every slab that exists is on exactly one list of its cache,
and the list says how full it is. The functions below are known by a contract that also
names the pages of the slabs that exist. -/
namespace Frostix.Slab
open Machine32 ByteMemory

def slabVirtEnd : Nat := 0xFFC00000

structure SlabVirt (virt : Nat) : Prop where
  aligned : virt % 4096 = 0
  start : slabVirtStart ≤ virt
  below : virt < slabVirtEnd

theorem SlabVirt.page {virt : Nat} (h : SlabVirt virt) : SlabPage virt := by
  have haligned := h.aligned
  have hbelow := h.below
  unfold slabVirtEnd at hbelow
  exact ⟨haligned, by omega⟩

/-- The slab allocator with its live objects and the slabs that exist, each with its
cache. -/
structure Client (σ : Type) where
  slabs : Slabs σ
  live : List (Nat × Nat)
  backed : List (Nat × Nat)

/-- The objects among `live` that lie in a slab. -/
def objectsIn (live : List (Nat × Nat)) (slab : Nat) : List Nat :=
  (live.filter fun x => objToSlab x.2 = slab).map Prod.snd

/-- The slabs among `backed` that belong to a cache. -/
def slabsOf (backed : List (Nat × Nat)) (cache : Nat) : List Nat :=
  (backed.filter fun x => x.1 = cache).map Prod.snd

def KmemCache.slabs (c : KmemCache) : List Nat := c.slabsFull ++ (c.slabsPartial ++ c.slabsFree)

/-- Slabs are on the list that matches their occupancy, but for the slabs of `X`. -/
structure Matches (m : Mem) (c : KmemCache) (X : Set Nat) : Prop where
  onFull : ∀ slab ∈ c.slabsFull, slab ∉ X → slabInuse m slab = c.objectsPerSlab
  onPartial : ∀ slab ∈ c.slabsPartial, slab ∉ X →
    0 < slabInuse m slab ∧ slabInuse m slab < c.objectsPerSlab
  onFree : ∀ slab ∈ c.slabsFree, slab ∉ X → slabInuse m slab = 0

variable {σ : Type}

structure CacheOk (s : Client σ) (X : Set Nat) (cache : Nat) (c : KmemCache) : Prop where
  fits : Fits c
  pos : cache ≠ 0
  word : cache < 2 ^ 32
  listed : c.slabs.Perm (slabsOf s.backed cache)
  sorted : Matches s.slabs.mem c X
  slabs : ∀ slab ∈ c.slabs, SlabOk s.slabs.mem cache c slab (objectsIn s.live slab)

/-- The invariant of all caches. `J` is what the functions below keep, given the
descriptors and the slabs that exist; `X` holds slabs that are on the wrong list. -/
structure Inv (J : Set Nat → Set Nat → σ → Prop) (X : Set Nat) (s : Client σ) : Prop where
  caches : ∀ cache c, s.slabs.caches cache = some c → CacheOk s X cache c
  known : ∀ x ∈ s.backed, s.slabs.caches x.1 ≠ none
  distinct : (s.backed.map Prod.snd).Nodup
  placed : ∀ x ∈ s.backed, SlabVirt x.2 ∧ x.2 < s.slabs.nextSlabVirt
  aligned : s.slabs.nextSlabVirt % 4096 = 0
  above : slabVirtStart ≤ s.slabs.nextSlabVirt
  live : ∀ x ∈ s.live, (x.1, objToSlab x.2) ∈ s.backed
  env : J {a | s.slabs.caches a ≠ none} {p | p ∈ s.backed.map Prod.snd} s.slabs.env

/-- The contract of the functions below: the allocator, and the pages of slabs. -/
structure Backs (ops : MmOps σ) (J : Set Nat → Set Nat → σ → Prop) : Prop where
  allocator : ∀ P, Allocator ops fun A s => J A P s
  back : ∀ {A P s} (virt : Nat), SlabVirt virt → virt ∉ P → J A P s →
    ∃ backing s', backSlab ops s virt = some (backing, s') ∧
      (backing = .mapped → J A (insert virt P) s') ∧ (backing ≠ .mapped → J A P s')
  release : ∀ {A P s} (slab : Nat), slab ∈ P → J A P s →
    ∃ s', releaseSlab ops s slab = some s' ∧ J A (P \ {slab}) s'

theorem mem_slabsOf {backed : List (Nat × Nat)} {cache slab : Nat} :
    slab ∈ slabsOf backed cache ↔ (cache, slab) ∈ backed := by
  simp [slabsOf]

theorem slabsOf_sublist (backed : List (Nat × Nat)) (cache : Nat) :
    (slabsOf backed cache).Sublist (backed.map Prod.snd) := List.filter_sublist.map Prod.snd

theorem mem_objectsIn {live : List (Nat × Nat)} {slab obj : Nat} :
    obj ∈ objectsIn live slab ↔ (∃ cache, (cache, obj) ∈ live) ∧ objToSlab obj = slab := by
  simp only [objectsIn, List.mem_map, List.mem_filter, decide_eq_true_eq, Prod.exists,
    exists_eq_right]
  constructor
  · rintro ⟨cache, hmem, hslab⟩
    exact ⟨⟨cache, hmem⟩, hslab⟩
  · rintro ⟨⟨cache, hmem⟩, hslab⟩
    exact ⟨cache, hmem, hslab⟩

theorem objectsIn_cons (live : List (Nat × Nat)) (cache obj slab : Nat) :
    objectsIn ((cache, obj) :: live) slab =
      if objToSlab obj = slab then obj :: objectsIn live slab else objectsIn live slab := by
  unfold objectsIn
  by_cases h : objToSlab obj = slab
  · rw [List.filter_cons_of_pos (by simpa using h), if_pos h, List.map_cons]
  · rw [List.filter_cons_of_neg (by simpa using h), if_neg h]

theorem objectsIn_perm {live live' : List (Nat × Nat)} (h : live.Perm live') (slab : Nat) :
    (objectsIn live slab).Perm (objectsIn live' slab) := (h.filter _).map Prod.snd

theorem objectsIn_cons_other {cache obj other : Nat} (live : List (Nat × Nat)) (h : other ≠ objToSlab obj) :
    objectsIn ((cache, obj) :: live) other = objectsIn live other := by
  rw [objectsIn_cons, if_neg (Ne.symm h)]

theorem objectsIn_erase {live : List (Nat × Nat)} {cache obj : Nat} (hobj : (cache, obj) ∈ live) :
    ((objectsIn live (objToSlab obj)).erase obj).Perm (objectsIn (live.erase (cache, obj)) (objToSlab obj)) ∧
      ∀ other, other ≠ objToSlab obj → (objectsIn live other).Perm
        (objectsIn (live.erase (cache, obj)) other) := by
  have hperm := objectsIn_perm (List.perm_cons_erase hobj)
  constructor
  · have hself := (hperm (objToSlab obj)).erase obj
    rwa [objectsIn_cons, if_pos rfl, List.erase_cons_head] at hself
  · intro other hother
    have hp := hperm other
    rwa [objectsIn_cons_other _ hother] at hp

theorem SlabOk.perm {m : Mem} {cache slab : Nat} {c : KmemCache} {live live' : List Nat}
    (h : SlabOk m cache c slab live) (hperm : live.Perm live') : SlabOk m cache c slab live' := by
  obtain ⟨free, hthread, hslots⟩ := h.objects
  exact ⟨h.owner, h.inuse.trans hperm.length_eq, free, hthread,
    (List.Perm.append_left free hperm.symm).trans hslots⟩

structure SameGeometry (c c' : KmemCache) : Prop where
  objectSize : c'.objectSize = c.objectSize
  align : c'.align = c.align
  ctor : c'.ctor = c.ctor
  objectsPerSlab : c'.objectsPerSlab = c.objectsPerSlab

theorem SameGeometry.fits {c c' : KmemCache} (h : SameGeometry c c') (hfit : Fits c) : Fits c' := by
  obtain ⟨hsize, halign, hctor, hcount⟩ := h
  refine ⟨?_, ?_, ?_, ?_, ?_, ?_⟩
  · rw [hcount]
    exact hfit.pos
  · rw [hsize]
    exact hfit.word
  · rw [halign]
    exact hfit.aligned
  · rw [halign]
    exact hfit.header
  · rw [halign, hcount, hsize]
    exact hfit.room
  · rw [hctor, hsize]
    exact hfit.ctor

theorem SlabOk.congr_cache {m : Mem} {cache slab : Nat} {c c' : KmemCache} {live : List Nat}
    (h : SlabOk m cache c slab live) (hsame : SameGeometry c c') : SlabOk m cache c' slab live := by
  obtain ⟨free, hthread, hslots⟩ := h.objects
  refine ⟨h.owner, h.inuse, free, hthread, ?_⟩
  unfold KmemCache.slots KmemCache.slot at hslots ⊢
  rw [hsame.objectsPerSlab, hsame.align, hsame.objectSize]
  exact hslots

theorem unlink_slabs {c : KmemCache} (h : c.slabs.Nodup) (slab : Nat) :
    (c.unlink slab).slabs = c.slabs.erase slab := by
  unfold KmemCache.slabs KmemCache.unlink at *
  obtain ⟨-, hrest, hcross⟩ := List.nodup_append.mp h
  obtain ⟨-, -, hcross'⟩ := List.nodup_append.mp hrest
  by_cases hfull : slab ∈ c.slabsFull
  · have hother : slab ∉ c.slabsPartial ++ c.slabsFree := fun hmem => hcross slab hfull slab hmem rfl
    rw [List.mem_append, not_or] at hother
    rw [List.erase_append_left _ hfull, List.erase_of_not_mem hother.1, List.erase_of_not_mem hother.2]
  · rw [List.erase_append_right _ hfull, List.erase_of_not_mem hfull]
    by_cases hpart : slab ∈ c.slabsPartial
    · have hother : slab ∉ c.slabsFree := fun hmem => hcross' slab hpart slab hmem rfl
      rw [List.erase_append_left _ hpart, List.erase_of_not_mem hother]
    · rw [List.erase_append_right _ hpart, List.erase_of_not_mem hpart]

theorem slabs_nodup_parts {c : KmemCache} (h : c.slabs.Nodup) :
    c.slabsFull.Nodup ∧ c.slabsPartial.Nodup ∧ c.slabsFree.Nodup := by
  obtain ⟨hfull, hrest, -⟩ := List.nodup_append.mp h
  obtain ⟨hpart, hfree, -⟩ := List.nodup_append.mp hrest
  exact ⟨hfull, hpart, hfree⟩

theorem perm_full (c : KmemCache) (slab : Nat) :
    (KmemCache.slabs { c with slabsFull := c.slabsFull ++ [slab] }).Perm (slab :: c.slabs) := by
  simp only [KmemCache.slabs, List.append_assoc, List.singleton_append]
  exact List.perm_middle

theorem perm_relisted (c : KmemCache) (slab : Nat) :
    (KmemCache.slabs { c with slabsPartial := c.slabsPartial ++ [slab] }).Perm (slab :: c.slabs) := by
  simp only [KmemCache.slabs, List.append_assoc, List.singleton_append]
  rw [← List.append_assoc, ← List.append_assoc]
  exact List.perm_middle

theorem perm_free (c : KmemCache) (slab : Nat) :
    (KmemCache.slabs { c with slabsFree := c.slabsFree ++ [slab] }).Perm (slab :: c.slabs) := by
  simp only [KmemCache.slabs]
  rw [← List.append_assoc, ← List.append_assoc, ← List.append_assoc]
  exact List.perm_append_singleton _ _

theorem relisted {c c' : KmemCache} {slab : Nat} (h : c.slabs.Nodup) (hslab : slab ∈ c.slabs)
    (hperm : c'.slabs.Perm (slab :: (c.unlink slab).slabs)) : c'.slabs.Perm c.slabs := by
  rw [unlink_slabs h] at hperm
  exact hperm.trans (List.perm_cons_erase hslab).symm

theorem Matches.relist {m m' : Mem} {c c' : KmemCache} {X : Set Nat} {slab : Nat} (h : Matches m c X)
    (hX : X ⊆ {slab}) (hcount : c'.objectsPerSlab = c.objectsPerSlab)
    (hsame : ∀ x ∈ c.slabs, x ≠ slab → slabInuse m' x = slabInuse m x)
    (hfull : ∀ x ∈ c'.slabsFull, x ≠ slab ∧ x ∈ c.slabsFull ∨
      x = slab ∧ slabInuse m' slab = c.objectsPerSlab)
    (hpart : ∀ x ∈ c'.slabsPartial, x ≠ slab ∧ x ∈ c.slabsPartial ∨
      x = slab ∧ 0 < slabInuse m' slab ∧ slabInuse m' slab < c.objectsPerSlab)
    (hfree : ∀ x ∈ c'.slabsFree, x ≠ slab ∧ x ∈ c.slabsFree ∨ x = slab ∧ slabInuse m' slab = 0) :
    Matches m' c' ∅ := by
  have hout : ∀ {x}, x ≠ slab → x ∉ X := fun hne hx => hne (hX hx)
  refine ⟨?_, ?_, ?_⟩
  · intro x hx _
    rw [hcount]
    rcases hfull x hx with ⟨hne, hmem⟩ | ⟨rfl, hinuse⟩
    · rw [hsame x (List.mem_append_left _ hmem) hne]
      exact h.onFull x hmem (hout hne)
    · exact hinuse
  · intro x hx _
    rw [hcount]
    rcases hpart x hx with ⟨hne, hmem⟩ | ⟨rfl, hinuse⟩
    · rw [hsame x (List.mem_append_right _ (List.mem_append_left _ hmem)) hne]
      exact h.onPartial x hmem (hout hne)
    · exact hinuse
  · intro x hx _
    rcases hfree x hx with ⟨hne, hmem⟩ | ⟨rfl, hinuse⟩
    · rw [hsame x (List.mem_append_right _ (List.mem_append_right _ hmem)) hne]
      exact h.onFree x hmem (hout hne)
    · exact hinuse

theorem Matches.keep {m m' : Mem} {c c' : KmemCache} {X Y : Set Nat} (h : Matches m c X)
    (hcount : c'.objectsPerSlab = c.objectsPerSlab)
    (hsame : ∀ x ∈ c.slabs, slabInuse m' x = slabInuse m x)
    (hfull : ∀ x ∈ c'.slabsFull, x ∉ Y → x ∈ c.slabsFull ∧ x ∉ X)
    (hpart : ∀ x ∈ c'.slabsPartial, x ∉ Y → x ∈ c.slabsPartial ∧ x ∉ X)
    (hfree : ∀ x ∈ c'.slabsFree, x ∉ Y → x ∈ c.slabsFree ∧ x ∉ X) : Matches m' c' Y := by
  refine ⟨?_, ?_, ?_⟩
  · intro x hx hout
    obtain ⟨hmem, hout'⟩ := hfull x hx hout
    rw [hcount, hsame x (List.mem_append_left _ hmem)]
    exact h.onFull x hmem hout'
  · intro x hx hout
    obtain ⟨hmem, hout'⟩ := hpart x hx hout
    rw [hcount, hsame x (List.mem_append_right _ (List.mem_append_left _ hmem))]
    exact h.onPartial x hmem hout'
  · intro x hx hout
    obtain ⟨hmem, hout'⟩ := hfree x hx hout
    rw [hsame x (List.mem_append_right _ (List.mem_append_right _ hmem))]
    exact h.onFree x hmem hout'

theorem CacheOk.keep {s s' : Client σ} {X Y : Set Nat} {cache : Nat} {c : KmemCache}
    (h : CacheOk s X cache c) (hmem : ∀ x ∈ c.slabs, Same s.slabs.mem s'.slabs.mem x 4096)
    (hlive : ∀ x ∈ c.slabs, (objectsIn s.live x).Perm (objectsIn s'.live x))
    (hlisted : (slabsOf s'.backed cache).Perm (slabsOf s.backed cache)) (hX : ∀ x ∈ c.slabs, x ∉ X) :
    CacheOk s' Y cache c := by
  refine ⟨h.fits, h.pos, h.word, h.listed.trans hlisted.symm, ?_, ?_⟩
  · refine h.sorted.keep rfl (fun x hx => load32_congr ((hmem x hx).mono (by omega) (by omega))) ?_ ?_ ?_
    · exact fun x hx _ => ⟨hx, hX x (List.mem_append_left _ hx)⟩
    · exact fun x hx _ => ⟨hx, hX x (List.mem_append_right _ (List.mem_append_left _ hx))⟩
    · exact fun x hx _ => ⟨hx, hX x (List.mem_append_right _ (List.mem_append_right _ hx))⟩
  · exact fun x hx => ((h.slabs x hx).congr_page h.fits (hmem x hx)).perm (hlive x hx)

theorem caches_update {caches : Nat → Option KmemCache} {cache : Nat} {c : KmemCache}
    (hc : caches cache = some c) (c' : KmemCache) :
    {a | Function.update caches cache (some c') a ≠ none} = {a | caches a ≠ none} := by
  ext a
  by_cases ha : a = cache
  · subst ha
    simp [hc]
  · simp [Function.update_of_ne ha]

section Change

variable {J : Set Nat → Set Nat → σ → Prop} {X : Set Nat} {s : Client σ} {cache slab : Nat}
  {c : KmemCache}

theorem Inv.nodup (h : Inv J X s) (hc : s.slabs.caches cache = some c) : c.slabs.Nodup :=
  (h.caches cache c hc).listed.nodup_iff.mpr (h.distinct.sublist (slabsOf_sublist _ _))

theorem Inv.backed (h : Inv J X s) (hc : s.slabs.caches cache = some c) (hslab : slab ∈ c.slabs) :
    (cache, slab) ∈ s.backed := mem_slabsOf.mp ((h.caches cache c hc).listed.mem_iff.mp hslab)

theorem Inv.virt (h : Inv J X s) (hc : s.slabs.caches cache = some c) (hslab : slab ∈ c.slabs) :
    SlabVirt slab := (h.placed _ (h.backed hc hslab)).1

theorem Inv.same_page (h : Inv J X s) (hc : s.slabs.caches cache = some c) (hslab : slab ∈ c.slabs)
    {cache' other : Nat} {d : KmemCache} (hd : s.slabs.caches cache' = some d) (hother : other ∈ d.slabs)
    (hne : other ≠ slab) {m' : Mem} (hout : ∀ x, x < slab ∨ slab + 4096 ≤ x → m' x = s.slabs.mem x) :
    Same s.slabs.mem m' other 4096 := by
  have haligned := (h.virt hc hslab).aligned
  have haligned' := (h.virt hd hother).aligned
  intro x _ _
  exact hout x (by omega)

theorem Inv.owner_unique (h : Inv J X s) (hc : s.slabs.caches cache = some c) (hslab : slab ∈ c.slabs)
    {cache' : Nat} {d : KmemCache} (hd : s.slabs.caches cache' = some d) (hslab' : slab ∈ d.slabs) :
    cache' = cache := by
  have heq := List.inj_on_of_nodup_map h.distinct (h.backed hd hslab') (h.backed hc hslab) rfl
  exact (Prod.mk.inj heq).1

/-- The page of one slab is written and its cache and the live objects in it change. -/
theorem Inv.update (h : Inv J X s) (hX : X ⊆ {slab}) (hc : s.slabs.caches cache = some c)
    (hslab : slab ∈ c.slabs) {m' : Mem} {c' : KmemCache} {live' : List (Nat × Nat)}
    (hgeo : SameGeometry c c') (hperm : c'.slabs.Perm c.slabs)
    (hout : ∀ x, x < slab ∨ slab + 4096 ≤ x → m' x = s.slabs.mem x)
    (hok : SlabOk m' cache c slab (objectsIn live' slab))
    (hrest : ∀ other, other ≠ slab → (objectsIn s.live other).Perm (objectsIn live' other))
    (hlive : ∀ x ∈ live', (x.1, objToSlab x.2) ∈ s.backed) (hmatch : Matches m' c' ∅) :
    Inv J ∅ ⟨{ s.slabs with mem := m' }.setCache cache c', live', s.backed⟩ := by
  have hcache := h.caches cache c hc
  refine ⟨?_, ?_, h.distinct, h.placed, h.aligned, h.above, hlive, ?_⟩
  · intro k d hd
    have hd' : Function.update s.slabs.caches cache (some c') k = some d := hd
    by_cases hk : k = cache
    · subst hk
      rw [Function.update_self] at hd'
      cases hd'
      refine ⟨hgeo.fits hcache.fits, hcache.pos, hcache.word, hperm.trans hcache.listed, hmatch, ?_⟩
      intro other hother
      have hmem := hperm.mem_iff.mp hother
      by_cases heq : other = slab
      · subst heq
        exact hok.congr_cache hgeo
      · have hsame := h.same_page hc hslab hc hmem heq hout
        exact (((hcache.slabs other hmem).congr_page hcache.fits hsame).perm (hrest other heq)).congr_cache
          hgeo
    · rw [Function.update_of_ne hk] at hd'
      have hne : ∀ other ∈ d.slabs, other ≠ slab := by
        rintro other hother rfl
        exact hk (h.owner_unique hc hslab hd' hother)
      refine (h.caches k d hd').keep (fun x hx => h.same_page hc hslab hd' hx (hne x hx) hout)
        (fun x hx => hrest x (hne x hx)) (List.Perm.refl _) fun x hx hin => hne x hx (hX hin)
  · intro x hx
    by_cases hk : x.1 = cache
    · simp [Slabs.setCache, hk]
    · simpa [Slabs.setCache, Function.update_of_ne hk] using h.known x hx
  · dsimp only [Slabs.setCache]
    rw [caches_update hc]
    exact h.env

theorem setCache_self (hc : s.slabs.caches cache = some c) (m' : Mem) :
    { s.slabs with mem := m' }.setCache cache c = { s.slabs with mem := m' } := by
  unfold Slabs.setCache
  rw [← hc, Function.update_eq_self]

end Change

/-- `allocFrom` with an object that comes off its slab. -/
theorem allocFrom_eq {s : Slabs σ} {cache slab obj : Nat} {c : KmemCache} {mem : Mem}
    (hc : s.caches cache = some c)
    (hsource : c.source.head? = some slab) (hpop : popObject s.mem c slab = some (obj, mem)) :
    allocFrom s cache = some (obj, if slabInuse mem slab = c.objectsPerSlab then
      { s with mem }.setCache cache { c.unlink slab with slabsFull := (c.unlink slab).slabsFull ++ [slab] }
      else { s with mem }) := by
  unfold allocFrom
  rw [hc]
  simp only [Option.bind_eq_bind, Option.bind_some]
  rw [hsource]
  simp only [Option.bind_some]
  rw [hpop]
  simp only [Option.bind_some]
  by_cases hfull : slabInuse mem slab = c.objectsPerSlab
  · rw [if_pos hfull, if_pos hfull]
  · rw [if_neg hfull, if_neg hfull]

/-- All that `allocFrom` can do. -/
theorem allocFrom_cases {s t : Slabs σ} {cache obj : Nat} (h : allocFrom s cache = some (obj, t)) :
    ∃ c slab mem, s.caches cache = some c ∧ c.source.head? = some slab ∧
      popObject s.mem c slab = some (obj, mem) ∧
      (t = { s with mem }.setCache cache { c.unlink slab with slabsFull := (c.unlink slab).slabsFull ++ [slab] } ∨
        t = { s with mem }) := by
  unfold allocFrom at h
  obtain ⟨c, hc, h⟩ := Option.bind_eq_some_iff.mp h
  obtain ⟨slab, hslab, h⟩ := Option.bind_eq_some_iff.mp h
  obtain ⟨⟨obj', mem⟩, hpop, h⟩ := Option.bind_eq_some_iff.mp h
  dsimp only at h
  split_ifs at h with hfull
  · cases h
    exact ⟨c, slab, mem, hc, hslab, hpop, Or.inl rfl⟩
  · cases h
    exact ⟨c, slab, mem, hc, hslab, hpop, Or.inr rfl⟩

/-- All that `kmem_cache_alloc` can do: nothing for the null pointer; an allocation from a list,
or from a new slab when the lists are empty; nothing if there is no new slab. -/
theorem kmemCacheAlloc_cases {ops : MmOps σ} {s t : Slabs σ} {cache obj : Nat}
    (h : kmemCacheAlloc ops s cache = some (obj, t)) :
    (obj = 0 ∧ t = s) ∨ ∃ c, s.caches cache = some c ∧
      (c.source = [] ∧ (newSlab ops s cache = some (false, t) ∧ obj = 0 ∨
          ∃ u, newSlab ops s cache = some (true, u) ∧ allocFrom u cache = some (obj, t)) ∨
        c.source ≠ [] ∧ allocFrom s cache = some (obj, t)) := by
  unfold kmemCacheAlloc at h
  split_ifs at h with hzero
  · cases h
    exact Or.inl ⟨rfl, rfl⟩
  obtain ⟨c, hc, h⟩ := Option.bind_eq_some_iff.mp h
  refine Or.inr ⟨c, hc, ?_⟩
  split_ifs at h with hempty
  · obtain ⟨⟨ready, u⟩, hnew, h⟩ := Option.bind_eq_some_iff.mp h
    refine Or.inl ⟨List.isEmpty_iff.mp hempty, ?_⟩
    cases ready with
    | false =>
        cases h
        exact Or.inl ⟨hnew, rfl⟩
    | true => exact Or.inr ⟨u, hnew, h⟩
  · exact Or.inr ⟨fun hnil => hempty (List.isEmpty_iff.mpr hnil), h⟩

/-- All that `kmem_cache_free` can do: nothing, a push onto a slab without objects, or a push
and a move of the slab. -/
theorem kmemCacheFree_cases {s t : Slabs σ} {cache obj : Nat} (h : kmemCacheFree s cache obj = some t) :
    t = s ∨ slabCache s.mem (objToSlab obj) = cache ∧
      (t = { s with mem := pushObject s.mem (objToSlab obj) obj } ∨ ∃ c mem, s.caches cache = some c ∧
        (t = { s with mem }.setCache cache
            { c.unlink (objToSlab obj) with slabsFree := (c.unlink (objToSlab obj)).slabsFree ++ [objToSlab obj] } ∨
          t = { s with mem }.setCache cache { c.unlink (objToSlab obj) with
            slabsPartial := (c.unlink (objToSlab obj)).slabsPartial ++ [objToSlab obj] })) := by
  unfold kmemCacheFree at h
  dsimp only at h
  split_ifs at h with hnull hforeign hdouble hempty
  · cases h
    exact Or.inl rfl
  · cases h
    exact Or.inl rfl
  · cases h
    exact Or.inr ⟨not_not.mp hforeign, Or.inl rfl⟩
  · obtain ⟨c, hc, h⟩ := Option.bind_eq_some_iff.mp h
    cases h
    exact Or.inr ⟨not_not.mp hforeign, Or.inr ⟨c, _, hc, Or.inl rfl⟩⟩
  · obtain ⟨c, hc, h⟩ := Option.bind_eq_some_iff.mp h
    cases h
    exact Or.inr ⟨not_not.mp hforeign, Or.inr ⟨c, _, hc, Or.inr rfl⟩⟩

section Alloc

variable {J : Set Nat → Set Nat → σ → Prop} {X : Set Nat} {s : Client σ} {cache slab : Nat}
  {c : KmemCache}

theorem source_mem (h : slab ∈ c.source) : slab ∈ c.slabs := by
  unfold KmemCache.source at h
  split at h
  · exact List.mem_append_right _ (List.mem_append_right _ h)
  · exact List.mem_append_right _ (List.mem_append_left _ h)

theorem mem_erase_append {l : List Nat} (h : l.Nodup) {x : Nat} (hx : x ∈ l.erase slab ++ [slab]) :
    x ≠ slab ∧ x ∈ l ∨ x = slab := by
  rcases List.mem_append.mp hx with hx | hx
  · exact Or.inl (h.mem_erase_iff.mp hx)
  · exact Or.inr (List.mem_singleton.mp hx)

/-- The slab has room, and it is on the list of partial slabs or gets full at once. -/
theorem Inv.allocFrom (h : Inv J X s) (hX : X ⊆ {slab}) (hc : s.slabs.caches cache = some c)
    (hsource : c.source.head? = some slab) (hroom : (objectsIn s.live slab).length < c.objectsPerSlab)
    (hlist : slab ∈ c.slabsPartial ∨ c.objectsPerSlab = 1) :
    ∃ obj s', Slab.allocFrom s.slabs cache = some (obj, s') ∧ obj ≠ 0 ∧
      Inv J ∅ ⟨s', (cache, obj) :: s.live, s.backed⟩ := by
  have hslab := source_mem (List.mem_of_mem_head? hsource)
  have hcache := h.caches cache c hc
  have hnodup := h.nodup hc
  obtain ⟨hnfull, hnpart, hnfree⟩ := slabs_nodup_parts hnodup
  obtain ⟨obj, m', hpop, hne, hok, hout⟩ :=
    popObject_spec (hcache.slabs slab hslab) hcache.fits (h.virt hc hslab).page hroom
  have hinslab := hcache.fits.objToSlab (h.virt hc hslab).page (hok.live_slots List.mem_cons_self)
  have hok' : SlabOk m' cache c slab (objectsIn ((cache, obj) :: s.live) slab) := by
    rw [objectsIn_cons, if_pos hinslab]
    exact hok
  have hrest : ∀ other, other ≠ slab →
      (objectsIn s.live other).Perm (objectsIn ((cache, obj) :: s.live) other) := by
    intro other hother
    rw [objectsIn_cons_other _ (hinslab.symm ▸ hother)]
  have hlive : ∀ x ∈ (cache, obj) :: s.live, (x.1, objToSlab x.2) ∈ s.backed := by
    intro x hx
    rcases List.mem_cons.mp hx with rfl | hx
    · dsimp only
      rw [hinslab]
      exact h.backed hc hslab
    · exact h.live x hx
  have hsame : ∀ x ∈ c.slabs, x ≠ slab → slabInuse m' x = slabInuse s.slabs.mem x := fun x hx hxne =>
    load32_congr ((h.same_page hc hslab hc hx hxne hout).mono (by omega) (by omega))
  rw [allocFrom_eq hc hsource hpop]
  by_cases hfull : slabInuse m' slab = c.objectsPerSlab
  · rw [if_pos hfull]
    refine ⟨obj, _, rfl, hne, h.update hX hc hslab ⟨rfl, rfl, rfl, rfl⟩ (relisted hnodup hslab (perm_full _ _)) hout hok'
      hrest hlive (hcache.sorted.relist hX rfl hsame ?_ ?_ ?_)⟩
    · intro x hx
      rcases mem_erase_append hnfull hx with hx | rfl
      · exact Or.inl hx
      · exact Or.inr ⟨rfl, hfull⟩
    · exact fun x hx => Or.inl (hnpart.mem_erase_iff.mp hx)
    · exact fun x hx => Or.inl (hnfree.mem_erase_iff.mp hx)
  · -- not full: the slab stays on the list it was taken from
    rw [if_neg hfull]
    have hle := hok.length_le
    have hcount := hok.inuse
    rw [List.length_cons] at hle hcount
    have hpart : slab ∈ c.slabsPartial := by
      rcases hlist with hpart | hone
      · exact hpart
      · exact absurd (by omega) hfull
    obtain ⟨-, hrest', hcross⟩ := List.nodup_append.mp hnodup
    obtain ⟨-, -, hcross'⟩ := List.nodup_append.mp hrest'
    refine ⟨obj, _, rfl, hne, ?_⟩
    rw [← setCache_self hc m']
    refine h.update hX hc hslab ⟨rfl, rfl, rfl, rfl⟩ (List.Perm.refl _) hout hok' hrest hlive
      (hcache.sorted.relist hX rfl hsame ?_ ?_ ?_)
    · intro x hx
      refine Or.inl ⟨?_, hx⟩
      rintro rfl
      exact hcross x hx x (List.mem_append_left _ hpart) rfl
    · intro x hx
      by_cases heq : x = slab
      · exact Or.inr ⟨heq, by omega, by omega⟩
      · exact Or.inl ⟨heq, hx⟩
    · intro x hx
      refine Or.inl ⟨?_, hx⟩
      rintro rfl
      exact hcross' x hpart x hx rfl

theorem Inv.setEnv (h : Inv J X s) {env : σ} {next : Nat} (haligned : next % 4096 = 0)
    (hle : s.slabs.nextSlabVirt ≤ next)
    (hJ : J {a | s.slabs.caches a ≠ none} {p | p ∈ s.backed.map Prod.snd} env) :
    Inv J X ⟨{ s.slabs with env, nextSlabVirt := next }, s.live, s.backed⟩ := by
  refine ⟨?_, h.known, h.distinct, ?_, haligned, le_trans h.above hle, h.live, hJ⟩
  · intro k d hd
    obtain ⟨hfits, hpos, hword, hlisted, hsorted, hslabs⟩ := h.caches k d hd
    exact ⟨hfits, hpos, hword, hlisted, hsorted, hslabs⟩
  · exact fun x hx => ⟨(h.placed x hx).1, lt_of_lt_of_le (h.placed x hx).2 hle⟩

theorem Inv.next_fresh (h : Inv J X s) :
    s.slabs.nextSlabVirt ∉ s.backed.map Prod.snd ∧ objectsIn s.live s.slabs.nextSlabVirt = [] := by
  have hfresh : s.slabs.nextSlabVirt ∉ s.backed.map Prod.snd := by
    intro hmem
    obtain ⟨x, hx, heq⟩ := List.mem_map.mp hmem
    exact absurd heq (h.placed x hx).2.ne
  refine ⟨hfresh, List.eq_nil_iff_forall_not_mem.mpr fun obj hobj => ?_⟩
  obtain ⟨⟨k, hk⟩, hslab⟩ := mem_objectsIn.mp hobj
  have hback := h.live _ hk
  dsimp only at hback
  rw [hslab] at hback
  exact hfresh (List.mem_map.mpr ⟨_, hback, rfl⟩)

theorem CacheOk.addSlab {s' : Client σ} {virt : Nat} (h : CacheOk s ∅ cache c)
    (hnew : SlabOk s'.slabs.mem cache c virt []) (hnone : objectsIn s'.live virt = [])
    (hmem : ∀ x ∈ c.slabs, Same s.slabs.mem s'.slabs.mem x 4096) (hlive : s'.live = s.live)
    (hbacked : s'.backed = (cache, virt) :: s.backed) :
    CacheOk s' {virt} cache { c with slabsPartial := c.slabsPartial ++ [virt] } := by
  have hgeo : SameGeometry c { c with slabsPartial := c.slabsPartial ++ [virt] } := ⟨rfl, rfl, rfl, rfl⟩
  have hperm : KmemCache.slabs { c with slabsPartial := c.slabsPartial ++ [virt] }
      |>.Perm (virt :: c.slabs) := by
    simp only [KmemCache.slabs, List.append_assoc, List.singleton_append]
    rw [← List.append_assoc, ← List.append_assoc]
    exact List.perm_middle
  refine ⟨hgeo.fits h.fits, h.pos, h.word, ?_, ?_, ?_⟩
  · refine hperm.trans ?_
    simp only [hbacked, slabsOf, List.filter_cons, decide_true, if_true, List.map_cons]
    exact h.listed.cons _
  · refine h.sorted.keep rfl (fun x hx => load32_congr ((hmem x hx).mono (by omega) (by omega))) ?_ ?_ ?_
    · exact fun x hx _ => ⟨hx, Set.notMem_empty x⟩
    · intro x hx hne
      rcases List.mem_append.mp hx with hx | hx
      · exact ⟨hx, Set.notMem_empty x⟩
      · exact absurd (List.mem_singleton.mp hx) hne
    · exact fun x hx _ => ⟨hx, Set.notMem_empty x⟩
  · intro x hx
    rcases List.mem_cons.mp (hperm.mem_iff.mp hx) with rfl | hx
    · rw [hnone]
      exact hnew.congr_cache hgeo
    · rw [hlive]
      exact ((h.slabs x hx).congr_page h.fits (hmem x hx)).congr_cache hgeo

/-- A slab at the next address. -/
theorem Inv.addSlab (h : Inv J ∅ s) (hc : s.slabs.caches cache = some c)
    (hvirt : SlabVirt s.slabs.nextSlabVirt) {env : σ}
    (hJ : J {a | s.slabs.caches a ≠ none} (insert s.slabs.nextSlabVirt {p | p ∈ s.backed.map Prod.snd}) env) :
    Inv J {s.slabs.nextSlabVirt}
      ⟨{ s.slabs with
          env, nextSlabVirt := s.slabs.nextSlabVirt + 4096
          mem := buildSlab s.slabs.mem cache c s.slabs.nextSlabVirt }.setCache cache
          { c with slabsPartial := c.slabsPartial ++ [s.slabs.nextSlabVirt] },
        s.live, (cache, s.slabs.nextSlabVirt) :: s.backed⟩ := by
  have hcache := h.caches cache c hc
  obtain ⟨hfresh, hnone⟩ := h.next_fresh
  obtain ⟨hbuilt, hout⟩ := buildSlab_spec hcache.fits hvirt.page hcache.word s.slabs.mem
  have hsame : ∀ x ∈ s.backed,
      Same s.slabs.mem (buildSlab s.slabs.mem cache c s.slabs.nextSlabVirt) x.2 4096 := by
    intro x hx y _ _
    have haligned := (h.placed x hx).1.aligned
    have haligned' := h.aligned
    have hlt := (h.placed x hx).2
    exact hout y (by omega)
  refine ⟨?_, ?_, ?_, ?_, ?_, le_trans h.above (by dsimp only [Slabs.setCache]; omega), ?_, ?_⟩
  · intro k d hd
    have hd' : Function.update s.slabs.caches cache
      (some { c with slabsPartial := c.slabsPartial ++ [s.slabs.nextSlabVirt] }) k = some d := hd
    by_cases hk : k = cache
    · subst hk
      rw [Function.update_self] at hd'
      cases hd'
      exact hcache.addSlab hbuilt hnone (fun x hx => hsame _ (h.backed hc hx)) rfl rfl
    · rw [Function.update_of_ne hk] at hd'
      refine (h.caches k d hd').keep (fun x hx => hsame _ (h.backed hd' hx))
        (fun x _ => List.Perm.refl _) ?_ fun x _ => Set.notMem_empty x
      simp only [slabsOf, List.filter_cons, decide_eq_true_eq, if_neg (Ne.symm hk)]
      exact List.Perm.refl _
  · intro x hx
    rcases List.mem_cons.mp hx with rfl | hx
    · simp [Slabs.setCache]
    · by_cases hk : x.1 = cache
      · simp [Slabs.setCache, hk]
      · simpa [Slabs.setCache, Function.update_of_ne hk] using h.known x hx
  · exact List.nodup_cons.mpr ⟨hfresh, h.distinct⟩
  · intro x hx
    dsimp only [Slabs.setCache]
    rcases List.mem_cons.mp hx with rfl | hx
    · exact ⟨hvirt, by dsimp only; omega⟩
    · exact ⟨(h.placed x hx).1, by have := (h.placed x hx).2; omega⟩
  · have haligned := h.aligned
    dsimp only [Slabs.setCache]
    omega
  · exact fun x hx => List.mem_cons_of_mem _ (h.live x hx)
  · have hpages : {p | p ∈ ((cache, s.slabs.nextSlabVirt) :: s.backed).map Prod.snd} =
        insert s.slabs.nextSlabVirt {p | p ∈ s.backed.map Prod.snd} := by
      ext p
      simp only [List.map_cons, List.mem_cons, Set.mem_ofPred_eq, Set.mem_insert_iff]
    dsimp only [Slabs.setCache]
    rw [caches_update hc, hpages]
    exact hJ

end Alloc

/-- An allocation finds a partial slab, or a free slab that it fills at once, or the next
slab address is still below the window. -/
def AllocSafe (s : Slabs σ) (cache : Nat) : Prop :=
  ∀ c, s.caches cache = some c → c.slabsPartial = [] →
    (c.slabsFree ≠ [] → c.objectsPerSlab = 1) ∧ (c.slabsFree = [] → s.nextSlabVirt < slabVirtEnd)

def grown (s : Client σ) (cache obj : Nat) : List (Nat × Nat) :=
  match s.slabs.caches cache with
  | none => s.backed
  | some c => if c.source.isEmpty ∧ obj ≠ 0 then (cache, s.slabs.nextSlabVirt) :: s.backed else s.backed

def track (live : List (Nat × Nat)) (cache obj : Nat) : List (Nat × Nat) :=
  if obj = 0 then live else (cache, obj) :: live

section Calls

variable {ops : MmOps σ} {J : Set Nat → Set Nat → σ → Prop} {s : Client σ} {cache : Nat} {c : KmemCache}

theorem Inv.newSlab (h : Inv J ∅ s) (hops : Backs ops J) (hc : s.slabs.caches cache = some c)
    (hbelow : s.slabs.nextSlabVirt < slabVirtEnd) :
    (∃ s', Slab.newSlab ops s.slabs cache = some (false, s') ∧ Inv J ∅ ⟨s', s.live, s.backed⟩) ∨
      ∃ s', Slab.newSlab ops s.slabs cache = some (true, s') ∧
        s'.caches cache = some { c with slabsPartial := c.slabsPartial ++ [s.slabs.nextSlabVirt] } ∧
        Inv J {s.slabs.nextSlabVirt} ⟨s', s.live, (cache, s.slabs.nextSlabVirt) :: s.backed⟩ := by
  have hvirt : SlabVirt s.slabs.nextSlabVirt := ⟨h.aligned, h.above, hbelow⟩
  have hwrap : wrap (s.slabs.nextSlabVirt + 4096) = s.slabs.nextSlabVirt + 4096 := by
    unfold slabVirtEnd at hbelow
    exact wrap_of_lt (by omega)
  have haligned := h.aligned
  obtain ⟨backing, env, hrun, hmapped, hother⟩ := hops.back _ hvirt h.next_fresh.1 h.env
  unfold Slab.newSlab
  dsimp only
  rw [hrun]
  simp only [Option.bind_eq_bind, Option.bind_some, hwrap]
  cases backing with
  | noFrame => exact Or.inl ⟨_, rfl, h.setEnv haligned le_rfl (hother nofun)⟩
  | refused => exact Or.inl ⟨_, rfl, h.setEnv (by omega) (by omega) (hother nofun)⟩
  | mapped =>
      right
      simp only [hc, Option.bind_some]
      exact ⟨_, rfl, Function.update_self .., h.addSlab hc hvirt (hmapped rfl)⟩

theorem kmemCacheAlloc_spec (h : Inv J ∅ s) (hops : Backs ops J) (hc : s.slabs.caches cache = some c)
    (hsafe : AllocSafe s.slabs cache) :
    ∃ obj s', kmemCacheAlloc ops s.slabs cache = some (obj, s') ∧
      Inv J ∅ ⟨s', track s.live cache obj, grown s cache obj⟩ := by
  have hcache := h.caches cache c hc
  unfold kmemCacheAlloc grown
  rw [if_neg hcache.pos, hc]
  simp only [Option.bind_eq_bind, Option.bind_some]
  cases hsource : c.source with
  | nil =>
      have hlists : c.slabsPartial = [] ∧ c.slabsFree = [] := by
        unfold KmemCache.source at hsource
        split at hsource
        · exact ⟨List.isEmpty_iff.mp ‹_›, hsource⟩
        · exact absurd (List.isEmpty_iff.mpr hsource) ‹_›
      simp only [List.isEmpty_nil, if_true]
      rcases h.newSlab hops hc ((hsafe c hc hlists.1).2 hlists.2) with ⟨s', hrun, hinv⟩ |
        ⟨s', hrun, hc', hinv⟩
      · rw [hrun]
        refine ⟨0, s', rfl, ?_⟩
        simpa [track] using hinv
      · rw [hrun]
        rw [hlists.1, List.nil_append] at hc'
        have hfresh := h.next_fresh.2
        obtain ⟨obj, s₂, hrun₂, hne, hinv₂⟩ := hinv.allocFrom (le_refl _) hc' rfl
          (by dsimp only; rw [hfresh]; exact hcache.fits.pos) (Or.inl List.mem_cons_self)
        refine ⟨obj, s₂, hrun₂, ?_⟩
        simpa [track, hne] using hinv₂
  | cons slab rest =>
      simp only [List.isEmpty_cons, Bool.false_eq_true, if_false, false_and]
      have hmem : slab ∈ c.source := by rw [hsource]; exact List.mem_cons_self
      have hok := hcache.slabs slab (source_mem hmem)
      have hlist : slab ∈ c.slabsPartial ∧ (objectsIn s.live slab).length < c.objectsPerSlab ∨
          c.objectsPerSlab = 1 ∧ (objectsIn s.live slab).length < c.objectsPerSlab := by
        rw [← hok.inuse]
        unfold KmemCache.source at hmem
        split at hmem
        · have hone := (hsafe c hc (List.isEmpty_iff.mp ‹_›)).1 (List.ne_nil_of_mem hmem)
          rw [hcache.sorted.onFree slab hmem (Set.notMem_empty _)]
          exact Or.inr ⟨hone, hcache.fits.pos⟩
        · exact Or.inl ⟨hmem, (hcache.sorted.onPartial slab hmem (Set.notMem_empty _)).2⟩
      obtain ⟨obj, s', hrun, hne, hinv⟩ := h.allocFrom (Set.empty_subset _) hc (by rw [hsource]; rfl)
        (hlist.elim And.right And.right) (hlist.imp And.left And.left)
      refine ⟨obj, s', hrun, ?_⟩
      simpa [track, hne] using hinv

theorem kmemCacheFree_spec (h : Inv J ∅ s) {obj : Nat} (hobj : (cache, obj) ∈ s.live) :
    ∃ s', kmemCacheFree s.slabs cache obj = some s' ∧
      Inv J ∅ ⟨s', s.live.erase (cache, obj), s.backed⟩ := by
  have hback := h.live _ hobj
  obtain ⟨c, hc⟩ := Option.ne_none_iff_exists'.mp (h.known _ hback)
  have hcache := h.caches cache c hc
  have hslab : objToSlab obj ∈ c.slabs := hcache.listed.mem_iff.mpr (mem_slabsOf.mpr hback)
  have hnodup := h.nodup hc
  obtain ⟨hnfull, hnpart, hnfree⟩ := slabs_nodup_parts hnodup
  have hok := hcache.slabs _ hslab
  have hin : obj ∈ objectsIn s.live (objToSlab obj) := mem_objectsIn.mpr ⟨⟨cache, hobj⟩, rfl⟩
  have hpage := (h.virt hc hslab).page
  have hobjpos : obj ≠ 0 := by
    have hbounds := hcache.fits.bounds (hok.live_slots hin)
    omega
  obtain ⟨hinuse, hpushed, hout⟩ := hok.push hcache.fits hpage hin
  have hlen : 0 < (objectsIn s.live (objToSlab obj)).length := List.length_pos_of_mem hin
  have hword : (objectsIn s.live (objToSlab obj)).length < 2 ^ 32 := by
    rw [← hok.inuse]
    exact load32_lt _ _
  obtain ⟨hself, hrest⟩ := objectsIn_erase hobj
  have hok' : SlabOk (setInuse (pushObject s.slabs.mem (objToSlab obj) obj) (objToSlab obj)
      ((objectsIn s.live (objToSlab obj)).length - 1)) cache c (objToSlab obj)
      (objectsIn (s.live.erase (cache, obj)) (objToSlab obj)) := hpushed.perm hself
  have hlive : ∀ x ∈ s.live.erase (cache, obj), (x.1, objToSlab x.2) ∈ s.backed :=
    fun x hx => h.live x (List.mem_of_mem_erase hx)
  have hsame : ∀ x ∈ c.slabs, x ≠ objToSlab obj →
      slabInuse (setInuse (pushObject s.slabs.mem (objToSlab obj) obj) (objToSlab obj)
        ((objectsIn s.live (objToSlab obj)).length - 1)) x = slabInuse s.slabs.mem x := fun x hx hne =>
    load32_congr ((h.same_page hc hslab hc hx hne hout).mono (by omega) (by omega))
  have hcount : slabInuse (setInuse (pushObject s.slabs.mem (objToSlab obj) obj) (objToSlab obj)
      ((objectsIn s.live (objToSlab obj)).length - 1)) (objToSlab obj) =
      (objectsIn s.live (objToSlab obj)).length - 1 := load32_store32 _ _ (by omega)
  have hle := hok.length_le
  have hsub : wsub (objectsIn s.live (objToSlab obj)).length 1 =
      (objectsIn s.live (objToSlab obj)).length - 1 := wsub_of_le hword hlen
  unfold kmemCacheFree
  rw [if_neg (not_or.mpr ⟨hcache.pos, hobjpos⟩)]
  simp only [hok.owner, ne_eq, not_true_eq_false, if_false, hinuse, if_neg hlen.ne',
    hsub, Option.bind_eq_bind, hc, Option.bind_some, hcount]
  by_cases hzero : (objectsIn s.live (objToSlab obj)).length - 1 = 0
  · rw [if_pos hzero]
    refine ⟨_, rfl, h.update (Set.empty_subset _) hc hslab ⟨rfl, rfl, rfl, rfl⟩ (relisted hnodup hslab (perm_free _ _))
      hout hok' hrest hlive (hcache.sorted.relist (Set.empty_subset _) rfl hsame ?_ ?_ ?_)⟩
    · exact fun x hx => Or.inl (hnfull.mem_erase_iff.mp hx)
    · exact fun x hx => Or.inl (hnpart.mem_erase_iff.mp hx)
    · intro x hx
      rcases mem_erase_append hnfree hx with hx | rfl
      · exact Or.inl hx
      · exact Or.inr ⟨rfl, hcount.trans hzero⟩
  · rw [if_neg hzero]
    refine ⟨_, rfl, h.update (Set.empty_subset _) hc hslab ⟨rfl, rfl, rfl, rfl⟩ (relisted hnodup hslab (perm_relisted _ _))
      hout hok' hrest hlive (hcache.sorted.relist (Set.empty_subset _) rfl hsame ?_ ?_ ?_)⟩
    · exact fun x hx => Or.inl (hnfull.mem_erase_iff.mp hx)
    · intro x hx
      rcases mem_erase_append hnpart hx with hx | rfl
      · exact Or.inl hx
      · exact Or.inr ⟨rfl, by omega, by omega⟩
    · exact fun x hx => Or.inl (hnfree.mem_erase_iff.mp hx)

end Calls

theorem filter_slabsFree {c : KmemCache} (h : c.slabs.Nodup) :
    c.slabs.filter (fun x => ¬ x ∈ c.slabsFree) = c.slabsFull ++ c.slabsPartial := by
  obtain ⟨-, hrest, hcross⟩ := List.nodup_append.mp h
  obtain ⟨-, -, hcross'⟩ := List.nodup_append.mp hrest
  unfold KmemCache.slabs
  rw [List.filter_append, List.filter_append, List.filter_eq_self.mpr, List.filter_eq_self.mpr,
    List.filter_eq_nil_iff.mpr, List.append_nil]
  · simp
  · exact fun x hx => decide_eq_true fun hxf => hcross' x hx x hxf rfl
  · exact fun x hx => decide_eq_true fun hxf => hcross x hx x (List.mem_append_right _ hxf) rfl

theorem slabsOf_filter_self (backed : List (Nat × Nat)) (gone : List Nat) (cache : Nat) :
    slabsOf (backed.filter fun x => ¬ (x.1 = cache ∧ x.2 ∈ gone)) cache =
      (slabsOf backed cache).filter fun x => ¬ x ∈ gone := by
  unfold slabsOf
  rw [List.filter_filter, List.filter_map, List.filter_filter]
  refine congrArg (List.map Prod.snd) (List.filter_congr fun x _ => ?_)
  by_cases hx : x.1 = cache
  · simp [hx]
  · simp [hx]

theorem slabsOf_filter_other (backed : List (Nat × Nat)) (gone : List Nat) {cache other : Nat}
    (hne : other ≠ cache) :
    slabsOf (backed.filter fun x => ¬ (x.1 = cache ∧ x.2 ∈ gone)) other = slabsOf backed other := by
  unfold slabsOf
  rw [List.filter_filter]
  refine congrArg (List.map Prod.snd) (List.filter_congr fun x _ => ?_)
  by_cases hx : x.1 = other
  · simp [hx, hne]
  · simp [hx]

/-- The slabs that exist after `kmem_cache_shrink`. -/
def shrunk (s : Client σ) (cache : Nat) : List (Nat × Nat) :=
  match s.slabs.caches cache with
  | none => s.backed
  | some c => s.backed.filter fun x => ¬ (x.1 = cache ∧ x.2 ∈ c.slabsFree)

/-- The alignment is at most a page, and the constructor stays in its object. -/
def CreateSafe (size align : Nat) (ctor : Option (Mem → Nat → Mem)) : Prop :=
  align ≤ 4096 ∧ CtorOk ctor (alignUp size align)

section Lifetime

variable {ops : MmOps σ} {J : Set Nat → Set Nat → σ → Prop} {s : Client σ} {cache : Nat} {c : KmemCache}

theorem releaseSlabs_spec (hops : Backs ops J) {A : Set Nat} (xs : List Nat) :
    ∀ {P : Set Nat} {env : σ}, xs.Nodup → (∀ x ∈ xs, x ∈ P) → J A P env →
      ∃ env', releaseSlabs ops xs env = some env' ∧ J A (P \ {x | x ∈ xs}) env' := by
  induction xs with
  | nil =>
      intro P env _ _ hJ
      refine ⟨env, rfl, ?_⟩
      simpa using hJ
  | cons slab rest ih =>
      intro P env hnodup hin hJ
      obtain ⟨hslab, hnodup'⟩ := List.nodup_cons.mp hnodup
      obtain ⟨env₁, hrun, hJ₁⟩ := hops.release slab (hin slab List.mem_cons_self) hJ
      have hin' : ∀ x ∈ rest, x ∈ P \ {slab} := by
        refine fun x hx => ⟨hin x (List.mem_cons_of_mem _ hx), ?_⟩
        rintro rfl
        exact hslab hx
      obtain ⟨env₂, hrun₂, hJ₂⟩ := ih hnodup' hin' hJ₁
      have hset : (P \ {slab}) \ {x | x ∈ rest} = P \ {x | x ∈ slab :: rest} := by
        ext x
        simp only [Set.mem_sdiff, Set.mem_singleton_iff, Set.mem_ofPred_eq, List.mem_cons, not_or, and_assoc]
      rw [hset] at hJ₂
      refine ⟨env₂, ?_, hJ₂⟩
      rw [releaseSlabs, hrun]
      exact hrun₂

theorem Inv.free_empty (h : Inv J ∅ s) (hc : s.slabs.caches cache = some c) {slab : Nat}
    (hslab : slab ∈ c.slabsFree) {x : Nat × Nat} (hx : x ∈ s.live) : objToSlab x.2 ≠ slab := by
  intro heq
  have hcache := h.caches cache c hc
  have hok := hcache.slabs slab (List.mem_append_right _ (List.mem_append_right _ hslab))
  have hin : x.2 ∈ objectsIn s.live slab := mem_objectsIn.mpr ⟨⟨x.1, hx⟩, heq⟩
  have hlen := List.length_pos_of_mem hin
  rw [← hok.inuse, hcache.sorted.onFree slab hslab (Set.notMem_empty _)] at hlen
  exact lt_irrefl 0 hlen

theorem kmemCacheShrink_spec (h : Inv J ∅ s) (hops : Backs ops J) (hc : s.slabs.caches cache = some c) :
    ∃ s', kmemCacheShrink ops s.slabs cache = some s' ∧ Inv J ∅ ⟨s', s.live, shrunk s cache⟩ := by
  have hcache := h.caches cache c hc
  have hnodup := h.nodup hc
  have hfree : ∀ x ∈ c.slabsFree, (cache, x) ∈ s.backed := fun x hx =>
    h.backed hc (List.mem_append_right _ (List.mem_append_right _ hx))
  have hin : ∀ x ∈ c.slabsFree, x ∈ {p | p ∈ s.backed.map Prod.snd} :=
    fun x hx => List.mem_map.mpr ⟨(cache, x), hfree x hx, rfl⟩
  obtain ⟨env, hrun, hJ⟩ := releaseSlabs_spec hops c.slabsFree (slabs_nodup_parts hnodup).2.2 hin h.env
  have hshrunk : shrunk s cache = s.backed.filter fun x => ¬ (x.1 = cache ∧ x.2 ∈ c.slabsFree) := by
    rw [shrunk, hc]
  have hmem : ∀ {x}, x ∈ shrunk s cache ↔ x ∈ s.backed ∧ ¬ (x.1 = cache ∧ x.2 ∈ c.slabsFree) := by
    intro x
    rw [hshrunk, List.mem_filter, decide_eq_true_eq]
  have hexec : kmemCacheShrink ops s.slabs cache =
      some ({ s.slabs with env }.setCache cache { c with slabsFree := [] }) := by
    rw [kmemCacheShrink, if_neg hcache.pos, hc]
    simp only [Option.bind_eq_bind, Option.bind_some, hrun]
  refine ⟨_, hexec, ?_, ?_, ?_, ?_, h.aligned, h.above, ?_, ?_⟩
  · intro k d hd
    have hd' : Function.update s.slabs.caches cache (some { c with slabsFree := [] }) k = some d := hd
    by_cases hk : k = cache
    · subst hk
      rw [Function.update_self] at hd'
      cases hd'
      refine ⟨SameGeometry.fits (c := c) ⟨rfl, rfl, rfl, rfl⟩ hcache.fits, hcache.pos, hcache.word, ?_,
        hcache.sorted.keep rfl (fun _ _ => rfl) (fun x hx hout => ⟨hx, hout⟩) (fun x hx hout => ⟨hx, hout⟩)
          nofun, ?_⟩
      · have hslabs : KmemCache.slabs { c with slabsFree := [] } = c.slabsFull ++ c.slabsPartial := by
          simp [KmemCache.slabs]
        change (KmemCache.slabs { c with slabsFree := [] }).Perm (slabsOf (shrunk s k) k)
        rw [hslabs, hshrunk, slabsOf_filter_self, ← filter_slabsFree hnodup]
        exact hcache.listed.filter _
      · intro x hx
        have hx' : x ∈ c.slabs := by
          simp only [KmemCache.slabs, List.append_nil] at hx ⊢
          rw [← List.append_assoc]
          exact List.mem_append_left _ hx
        exact (hcache.slabs x hx').congr_cache ⟨rfl, rfl, rfl, rfl⟩
    · rw [Function.update_of_ne hk] at hd'
      refine (h.caches k d hd').keep (fun x _ => Same.refl _ _ _) (fun x _ => List.Perm.refl _) ?_
        fun x _ => Set.notMem_empty x
      change (slabsOf (shrunk s cache) k).Perm _
      rw [hshrunk, slabsOf_filter_other _ _ hk]
  · intro x hx
    by_cases hk : x.1 = cache
    · simp [Slabs.setCache, hk]
    · simpa [Slabs.setCache, Function.update_of_ne hk] using h.known x (hmem.mp hx).1
  · change ((shrunk s cache).map Prod.snd).Nodup
    rw [hshrunk]
    exact h.distinct.sublist (List.filter_sublist.map Prod.snd)
  · exact fun x hx => h.placed x (hmem.mp hx).1
  · intro x hx
    refine hmem.mpr ⟨h.live x hx, ?_⟩
    rintro ⟨-, hslab⟩
    exact h.free_empty hc hslab hx rfl
  · have hpages : {p | p ∈ s.backed.map Prod.snd} \ {x | x ∈ c.slabsFree} =
        {p | p ∈ (shrunk s cache).map Prod.snd} := by
      ext p
      simp only [Set.mem_sdiff, Set.mem_ofPred_eq, List.mem_map]
      constructor
      · rintro ⟨⟨x, hx, rfl⟩, hout⟩
        exact ⟨x, hmem.mpr ⟨hx, fun hboth => hout hboth.2⟩, rfl⟩
      · rintro ⟨x, hx, rfl⟩
        obtain ⟨hback, hout⟩ := hmem.mp hx
        refine ⟨⟨x, hback, rfl⟩, fun hin => hout ⟨?_, hin⟩⟩
        have heq := List.inj_on_of_nodup_map h.distinct hback (hfree x.2 hin) rfl
        exact congrArg Prod.fst heq
    dsimp only [Slabs.setCache]
    rw [caches_update hc, ← hpages]
    exact hJ

/-- A cache without slabs joins. -/
theorem Inv.addCache (h : Inv J ∅ s) (hnone : s.slabs.caches cache = none) (hpos : cache ≠ 0)
    (hword : cache < 2 ^ 32) (hfit : Fits c) (hempty : c.slabs = []) {env : σ} (kmemCaches : List Nat)
    (hJ : J (insert cache {a | s.slabs.caches a ≠ none}) {p | p ∈ s.backed.map Prod.snd} env) :
    Inv J ∅ ⟨{ s.slabs with env, kmemCaches }.setCache cache c, s.live, s.backed⟩ := by
  have hnew : slabsOf s.backed cache = [] := List.eq_nil_iff_forall_not_mem.mpr fun x hx =>
    h.known _ (mem_slabsOf.mp hx) hnone
  have hin : ∀ x, x ∉ c.slabs := by
    intro x
    rw [hempty]
    exact List.not_mem_nil
  refine ⟨?_, ?_, h.distinct, h.placed, h.aligned, h.above, h.live, ?_⟩
  · intro k d hd
    have hd' : Function.update s.slabs.caches cache (some c) k = some d := hd
    by_cases hk : k = cache
    · subst hk
      rw [Function.update_self] at hd'
      cases hd'
      refine ⟨hfit, hpos, hword, ?_, ⟨?_, ?_, ?_⟩, fun x hx => absurd hx (hin x)⟩
      · rw [hempty, hnew]
      · exact fun x hx _ => absurd (List.mem_append_left _ hx) (hin x)
      · exact fun x hx _ => absurd (List.mem_append_right _ (List.mem_append_left _ hx)) (hin x)
      · exact fun x hx _ => absurd (List.mem_append_right _ (List.mem_append_right _ hx)) (hin x)
    · rw [Function.update_of_ne hk] at hd'
      exact (h.caches k d hd').keep (fun x _ => Same.refl _ _ _) (fun x _ => List.Perm.refl _)
        (List.Perm.refl _) fun x _ => Set.notMem_empty x
  · intro x hx
    by_cases hk : x.1 = cache
    · simp [Slabs.setCache, hk]
    · simpa [Slabs.setCache, Function.update_of_ne hk] using h.known x hx
  · have hset : {a | Function.update s.slabs.caches cache (some c) a ≠ none} =
        insert cache {a | s.slabs.caches a ≠ none} := by
      ext a
      by_cases ha : a = cache
      · simp [ha]
      · simp [ha]
    dsimp only [Slabs.setCache]
    rw [hset]
    exact hJ

theorem kmemCacheCreate_spec (h : Inv J ∅ s) (hops : Backs ops J) {name : Option Nat} {size align : Nat}
    {ctor : Option (Mem → Nat → Mem)} (hsafe : CreateSafe size align ctor) {r : Nat} {s' : Slabs σ}
    (hrun : kmemCacheCreate ops s.slabs name size align ctor = some (r, s')) :
    Inv J ∅ ⟨s', s.live, s.backed⟩ := by
  unfold kmemCacheCreate at hrun
  cases name with
  | none =>
      cases hrun
      exact h
  | some len =>
      by_cases hbad : size = 0 ∨ align < slabMinAlign ∨ align &&& (align - 1) ≠ 0
      · simp only [if_pos hbad] at hrun
        cases hrun
        exact h
      simp only [if_neg hbad] at hrun
      rw [not_or, not_or, not_not, not_lt] at hbad
      obtain ⟨p, env, hmalloc, hcase⟩ := (hops.allocator _).kmalloc (wrap (sizeofCache + (len + 1))) h.env
      simp only [hmalloc, Option.bind_eq_bind, Option.bind_some] at hrun
      rcases hcase with ⟨rfl, hJ⟩ | ⟨hp, hword, hfresh, hJ⟩
      · rw [if_pos rfl] at hrun
        cases hrun
        exact h.setEnv h.aligned le_rfl hJ
      rw [if_neg hp] at hrun
      by_cases hsize : alignUp size align = 0
      · rw [if_pos hsize] at hrun
        cases hrun
      rw [if_neg hsize] at hrun
      by_cases hcount : wsub 4096 (firstObjOff align) / alignUp size align = 0
      · rw [if_pos hcount] at hrun
        cases hrun
        refine h.setEnv h.aligned le_rfl ?_
        have hfree := (hops.allocator _).kfree _ env p hJ (Set.mem_insert ..)
        rwa [Set.insert_sdiff_self_of_notMem hfresh] at hfree
      · rw [if_neg hcount] at hrun
        have hnone : s.slabs.caches p = none := by
          by_contra hsome
          exact hfresh hsome
        cases hrun
        exact h.addCache hnone hp hword
          (fits_of_create hbad.2.1 hbad.2.2 hsafe.1 hsafe.2 hsize hcount) rfl _ hJ

theorem Inv.write (h : Inv J ∅ s) (hc : s.slabs.caches cache = some c) {obj i : Nat}
    (hobj : (cache, obj) ∈ s.live) (hi : i < c.objectSize) (v : BitVec 8) :
    Inv J ∅ ⟨{ s.slabs with mem := store8 s.slabs.mem (obj + i) v }, s.live, s.backed⟩ := by
  have hcache := h.caches cache c hc
  have hslab : objToSlab obj ∈ c.slabs := hcache.listed.mem_iff.mpr (mem_slabsOf.mpr (h.live _ hobj))
  have hok := hcache.slabs _ hslab
  have hin : obj ∈ objectsIn s.live (objToSlab obj) := mem_objectsIn.mpr ⟨⟨cache, hobj⟩, rfl⟩
  obtain ⟨hlo, hhi⟩ := hcache.fits.bounds (hok.live_slots hin)
  have hnodup := h.nodup hc
  have hout : ∀ x, x < objToSlab obj ∨ objToSlab obj + 4096 ≤ x →
      store8 s.slabs.mem (obj + i) v x = s.slabs.mem x := by
    intro x hx
    rw [store8, if_neg (by omega)]
  have hwritten := hok.write hcache.fits hin (store8 s.slabs.mem (obj + i) v) fun x hx => by
    rw [store8, if_neg (by omega)]
  have hsame : ∀ x ∈ c.slabs, slabInuse (store8 s.slabs.mem (obj + i) v) x = slabInuse s.slabs.mem x := by
    intro x hx
    by_cases hxs : x = objToSlab obj
    · rw [hxs, hwritten.inuse, hok.inuse]
    · exact load32_congr ((h.same_page hc hslab hc hx hxs hout).mono (by omega) (by omega))
  rw [← setCache_self hc]
  exact h.update (Set.empty_subset _) hc hslab ⟨rfl, rfl, rfl, rfl⟩ (List.Perm.refl _) hout hwritten
    (fun _ _ => List.Perm.refl _) h.live (hcache.sorted.keep rfl hsame (fun x hx hx' => ⟨hx, hx'⟩)
      (fun x hx hx' => ⟨hx, hx'⟩) fun x hx hx' => ⟨hx, hx'⟩)

end Lifetime

end Frostix.Slab
