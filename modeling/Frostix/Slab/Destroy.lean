import Frostix.Slab.HeapPages

/-!
Runs of the heap interleaved with the slab allocator. As long as no cache is destroyed, the
pages of the heap stay mapped. `kmem_cache_destroy` gives back the frames of the slabs, but
the descriptor is a block of the heap, and releasing its page leaves a hole in the heap. -/
namespace Frostix.Slab
open Machine32 ByteMemory Pmm Vmm Heap Services

/-- A call of the heap or of the slab allocator, or a client's store. -/
inductive MemoryCall where
  | heap (op : HeapOp)
  | slab (op : SlabOp)
  | destroy (cache : Nat)

/-- The heap of the kernel; `kcalloc` is recorded with what it asks `kmalloc` for. -/
def heapCall (k : Kernel) : HeapOp → Option Kernel
  | .kcalloc num size => do
      let (ptr, heap) ← Heap.kcalloc machinePages k.heap.heap num size
      some { k with heap := ⟨heap, Heap.track k.heap.live ptr (wrap (num * size))⟩ }
  | op => (op.exec machinePages k.heap).map fun (_, heap) => { k with heap }

def MemoryCall.exec (s : Client Kernel) : MemoryCall → Option (Client Kernel)
  | .heap op => (heapCall s.slabs.env op).map fun env => ⟨{ s.slabs with env }, s.live, s.backed⟩
  | .slab op => (op.exec kernelOps s).map Prod.snd
  | .destroy cache => (kmemCacheDestroy kernelOps s.slabs cache).map fun t =>
      ⟨t, s.live, s.backed.filter fun x => x.1 ≠ cache⟩

def MemoryCall.Allowed (s : Client Kernel) : MemoryCall → Prop
  | .heap op => op.Allowed s.slabs.env.heap
  | .slab _ => True
  | .destroy _ => True

/-- No cache is destroyed, slabs are made below the page-table window only, and an object
is freed only while its cache has the slab. -/
def MemoryCall.Safe (s : Client Kernel) : MemoryCall → Prop
  | .slab (.alloc cache) => ∀ c, s.slabs.caches cache = some c → c.source = [] →
      s.slabs.nextSlabVirt < slabVirtEnd
  | .slab (.free cache obj) => slabCache s.slabs.mem (objToSlab obj) = cache →
      (cache, objToSlab obj) ∈ s.backed
  | .destroy cache => cache = 0
  | _ => True

def MemoryStep (s : Client Kernel) (call : MemoryCall) (t : Client Kernel) : Prop :=
  call.Allowed s ∧ call.exec s = some t

def SafeMemoryStep (s : Client Kernel) (call : MemoryCall) (t : Client Kernel) : Prop :=
  call.Safe s ∧ MemoryStep s call t

/-- `kmem_cache_destroy` after it has shrunk a cache in use. -/
def destroyRest {σ : Type} (ops : MmOps σ) (cache : Nat) (s : Slabs σ) : Option (Slabs σ) := do
  let c ← s.caches cache
  let env ← releaseSlabs ops (c.slabsFull ++ c.slabsPartial ++ c.slabsFree) s.env
  let phys ← ops.vmmGetPhysicalAddr env cache
  let (_, env) ← ops.vmmUnmapPage env cache
  some { s with
    env := ops.pmmFreePage env phys
    caches := Function.update s.caches cache none
    kmemCaches := s.kmemCaches.erase cache }

theorem kmemCacheDestroy_eq {σ : Type} {ops : MmOps σ} {s : Slabs σ} {cache : Nat} {c : KmemCache}
    (hne : cache ≠ 0) (hc : s.caches cache = some c) :
    kmemCacheDestroy ops s cache =
      (if c.slabsFull.isEmpty ∧ c.slabsPartial.isEmpty then some s else kmemCacheShrink ops s cache).bind
        (destroyRest ops cache) := by
  unfold kmemCacheDestroy
  rw [if_neg hne, hc]
  simp only [Option.bind_eq_bind, Option.bind_some]
  split_ifs <;> rfl

def slabPages (backed : List (Nat × Nat)) : Set Nat := {p | ∃ x ∈ backed, x.2 / 4096 = p}

/-- Slabs are on lists of their own cache, once each; their pages are theirs alone, and the
descriptors lie in the heap. -/
structure Settled (s : Client Kernel) : Prop where
  listed : ∀ cache c, s.slabs.caches cache = some c →
    c.slabs.Nodup ∧ ∀ slab ∈ c.slabs, (cache, slab) ∈ s.backed
  inHeap : ∀ cache c, s.slabs.caches cache = some c →
    heapStart ≤ cache ∧ cache < s.slabs.env.heap.heap.currentEnd
  distinct : (s.backed.map Prod.snd).Nodup
  aligned : ∀ x ∈ s.backed, x.2 % 4096 = 0
  next : s.slabs.nextSlabVirt % 4096 = 0
  env : Partitioned (slabPages s.backed) heapStart s.slabs.env

section Lists

variable {σ : Type} {s t : Slabs σ} {cache : Nat} {c : KmemCache}

/-- The lists of the caches change by moving `slab`, and nothing else does. -/
structure Moves (s t : Slabs σ) (cache slab : Nat) : Prop where
  env : t.env = s.env
  next : t.nextSlabVirt = s.nextSlabVirt
  lists : ∀ a c', t.caches a = some c' → ∃ c, s.caches a = some c ∧
    (c.slabs.Nodup → c'.slabs.Nodup ∧ ∀ x ∈ c'.slabs, x ∈ c.slabs ∨ a = cache ∧ x = slab)

theorem relist_slabs (h : c.slabs.Nodup) {slab : Nat} {c' : KmemCache}
    (hperm : c'.slabs.Perm (slab :: (c.unlink slab).slabs)) :
    c'.slabs.Nodup ∧ ∀ x ∈ c'.slabs, x ∈ c.slabs ∨ x = slab := by
  rw [unlink_slabs h] at hperm
  constructor
  · refine hperm.nodup_iff.mpr (List.nodup_cons.mpr ⟨fun hmem => ?_, h.erase slab⟩)
    exact (h.mem_erase_iff.mp hmem).1 rfl
  · intro x hx
    rcases List.mem_cons.mp (hperm.mem_iff.mp hx) with rfl | hx
    · exact Or.inr rfl
    · exact Or.inl (List.mem_of_mem_erase hx)

theorem Moves.setCache (hc : s.caches cache = some c) {slab : Nat} {c' : KmemCache} {mem : Mem}
    (h : c.slabs.Nodup → c'.slabs.Nodup ∧ ∀ x ∈ c'.slabs, x ∈ c.slabs ∨ x = slab) :
    Moves s ({ s with mem }.setCache cache c') cache slab := by
  refine ⟨rfl, rfl, fun a d hd => ?_⟩
  have hd' : Function.update s.caches cache (some c') a = some d := hd
  by_cases ha : a = cache
  · subst ha
    rw [Function.update_self] at hd'
    cases hd'
    refine ⟨c, hc, fun hnodup => ⟨(h hnodup).1, fun x hx => ?_⟩⟩
    exact ((h hnodup).2 x hx).imp_right fun heq => ⟨rfl, heq⟩
  · rw [Function.update_of_ne ha] at hd'
    exact ⟨d, hd', fun hnodup => ⟨hnodup, fun x hx => Or.inl hx⟩⟩

theorem Moves.same (s : Slabs σ) (mem : Mem) (cache slab : Nat) : Moves s { s with mem } cache slab :=
  ⟨rfl, rfl, fun _ c' hc' => ⟨c', hc', fun hnodup => ⟨hnodup, fun _ hx => Or.inl hx⟩⟩⟩

theorem popObject_ne_zero {m m' : Mem} {c : KmemCache} {slab obj : Nat}
    (h : popObject m c slab = some (obj, m')) :
    obj ≠ 0 := by
  unfold popObject at h
  dsimp only at h
  by_cases hzero : slabFreelist m slab = 0
  · rw [if_pos hzero] at h
    cases h
  · rw [if_neg hzero] at h
    cases hctor : c.ctor with
    | none =>
        rw [hctor] at h
        cases h
        exact hzero
    | some construct =>
        rw [hctor] at h
        cases h
        exact hzero

theorem allocFrom_moves {obj : Nat} (h : allocFrom s cache = some (obj, t)) :
    obj ≠ 0 ∧ ∃ c slab, s.caches cache = some c ∧ slab ∈ c.slabs ∧ Moves s t cache slab := by
  obtain ⟨c, slab, mem, hc, hslab, hpop, hmoved⟩ := allocFrom_cases h
  refine ⟨popObject_ne_zero hpop, c, slab, hc, source_mem (List.mem_of_mem_head? hslab), ?_⟩
  rcases hmoved with rfl | rfl
  · exact Moves.setCache hc fun hnodup => relist_slabs hnodup (perm_full _ slab)
  · exact Moves.same s mem cache slab

theorem kmemCacheFree_moves {obj : Nat} (h : kmemCacheFree s cache obj = some t) :
    t = s ∨ slabCache s.mem (objToSlab obj) = cache ∧ Moves s t cache (objToSlab obj) := by
  refine (kmemCacheFree_cases h).imp_right fun ⟨howner, hmoved⟩ => ⟨howner, ?_⟩
  rcases hmoved with rfl | ⟨c, mem, hc, rfl | rfl⟩
  · exact Moves.same ..
  · exact Moves.setCache hc fun hnodup => relist_slabs hnodup (perm_free _ _)
  · exact Moves.setCache hc fun hnodup => relist_slabs hnodup (perm_relisted _ _)

end Lists

section Steps

variable {s : Client Kernel} {t : Slabs Kernel} {cache : Nat} {c : KmemCache}

theorem Settled.moves (h : Settled s) {slab : Nat} (hm : Moves s.slabs t cache slab)
    (hslab : (cache, slab) ∈ s.backed) (live : List (Nat × Nat)) : Settled ⟨t, live, s.backed⟩ := by
  refine ⟨?_, ?_, h.distinct, h.aligned, ?_, ?_⟩
  · intro a d hd
    obtain ⟨d₀, hd₀, hlists⟩ := hm.lists a d hd
    obtain ⟨hnodup, hin⟩ := h.listed a d₀ hd₀
    refine ⟨(hlists hnodup).1, fun x hx => ?_⟩
    rcases (hlists hnodup).2 x hx with hx | ⟨rfl, rfl⟩
    · exact hin x hx
    · exact hslab
  · intro a d hd
    obtain ⟨d₀, hd₀, -⟩ := hm.lists a d hd
    dsimp only
    rw [hm.env]
    exact h.inHeap a d₀ hd₀
  · dsimp only
    rw [hm.next]
    exact h.next
  · dsimp only
    rw [hm.env]
    exact h.env

theorem Settled.setEnv (h : Settled s) {env : Kernel} {next : Nat} (hnext : next % 4096 = 0)
    (henv : Partitioned (slabPages s.backed) s.slabs.env.heap.heap.currentEnd env) (live : List (Nat × Nat)) :
    Settled ⟨{ s.slabs with env, nextSlabVirt := next }, live, s.backed⟩ := by
  have hgrown := henv.ok.grown
  refine ⟨h.listed, ?_, h.distinct, h.aligned, hnext, henv.mono (le_trans h.env.ok.grown hgrown)⟩
  intro a d hd
  obtain ⟨hlo, hhi⟩ := h.inHeap a d hd
  exact ⟨hlo, lt_of_lt_of_le hhi hgrown⟩

theorem Settled.partitioned (h : Settled s) :
    Partitioned (slabPages s.backed) s.slabs.env.heap.heap.currentEnd s.slabs.env := h.env.mono le_rfl

theorem Settled.inHeap_update (h : Settled s) (hc : s.slabs.caches cache = some c) {e : Nat}
    (hgrown : s.slabs.env.heap.heap.currentEnd ≤ e) {c' : KmemCache} (a : Nat) (d : KmemCache)
    (hd : Function.update s.slabs.caches cache (some c') a = some d) : heapStart ≤ a ∧ a < e := by
  obtain ⟨d₀, hd₀⟩ : ∃ d₀, s.slabs.caches a = some d₀ := by
    by_cases ha : a = cache
    · exact ⟨c, ha ▸ hc⟩
    · rw [Function.update_of_ne ha] at hd
      exact ⟨d, hd⟩
  obtain ⟨hlo, hhi⟩ := h.inHeap a d₀ hd₀
  exact ⟨hlo, lt_of_lt_of_le hhi hgrown⟩

theorem slabPages_cons (x : Nat × Nat) (backed : List (Nat × Nat)) :
    slabPages (x :: backed) = insert (x.2 / 4096) (slabPages backed) := by
  ext p
  simp only [slabPages, List.exists_mem_cons_iff, Set.mem_ofPred_eq, Set.mem_insert_iff, eq_comm]

theorem next_aligned {virt : Nat} (h : virt % 4096 = 0) : wrap (virt + 4096) % 4096 = 0 := by
  unfold wrap
  omega

/-- A slab joins the partial list of its cache, or there is none. -/
theorem Settled.newSlab (h : Settled s) (hbelow : s.slabs.nextSlabVirt < slabVirtEnd) {ready : Bool}
    (hrun : newSlab kernelOps s.slabs cache = some (ready, t)) (live : List (Nat × Nat)) :
    Settled ⟨t, live, if ready then (cache, s.slabs.nextSlabVirt) :: s.backed else s.backed⟩ := by
  have hnext := h.next
  obtain ⟨backing, env, hback, hmapped, hother⟩ := backSlab_partitioned h.partitioned hbelow
  unfold Slab.newSlab at hrun
  dsimp only at hrun
  rw [hback] at hrun
  simp only [Option.bind_eq_bind, Option.bind_some] at hrun
  cases backing with
  | noFrame =>
      cases hrun
      exact h.setEnv h.next (hother nofun) live
  | refused =>
      cases hrun
      exact h.setEnv (next_aligned hnext) (hother nofun) live
  | mapped =>
      obtain ⟨c, hc, hrun⟩ := Option.bind_eq_some_iff.mp hrun
      cases hrun
      obtain ⟨henv, hfresh⟩ := hmapped rfl
      have hgrown := henv.ok.grown
      have hnew : ∀ a, (a, s.slabs.nextSlabVirt) ∉ s.backed := fun a hmem => hfresh ⟨_, hmem, rfl⟩
      rw [if_pos rfl]
      refine ⟨?_, ?_, ?_, ?_, next_aligned hnext, ?_⟩
      · intro a d hd
        have hd' : Function.update s.slabs.caches cache
          (some { c with slabsPartial := c.slabsPartial ++ [s.slabs.nextSlabVirt] }) a = some d := hd
        by_cases ha : a = cache
        · subst ha
          rw [Function.update_self] at hd'
          cases hd'
          obtain ⟨hnodup, hin⟩ := h.listed a c hc
          have hperm := perm_relisted c s.slabs.nextSlabVirt
          have hfirst := List.nodup_cons.mpr ⟨fun hmem => hnew a (hin _ hmem), hnodup⟩
          refine ⟨hperm.nodup_iff.mpr hfirst, ?_⟩
          intro x hx
          rcases List.mem_cons.mp (hperm.mem_iff.mp hx) with rfl | hx
          · exact List.mem_cons_self
          · exact List.mem_cons_of_mem _ (hin x hx)
        · rw [Function.update_of_ne ha] at hd'
          obtain ⟨hnodup, hin⟩ := h.listed a d hd'
          exact ⟨hnodup, fun x hx => List.mem_cons_of_mem _ (hin x hx)⟩
      · exact h.inHeap_update hc hgrown
      · refine List.nodup_cons.mpr ⟨fun hmem => ?_, h.distinct⟩
        obtain ⟨⟨a, x⟩, hx, rfl⟩ := List.mem_map.mp hmem
        exact hnew a hx
      · intro x hx
        rcases List.mem_cons.mp hx with rfl | hx
        · exact hnext
        · exact h.aligned x hx
      · rw [slabPages_cons]
        exact henv.mono (le_trans h.env.ok.grown hgrown)

theorem grown_zero (s : Client Kernel) (cache : Nat) : grown s cache 0 = s.backed := by
  unfold grown
  split
  · rfl
  · simp

/-- `kmem_cache_alloc` takes an object from a slab of the cache, an old one or a new one. -/
theorem Settled.alloc (h : Settled s) {obj : Nat} (hsafe : (MemoryCall.slab (.alloc cache)).Safe s)
    (hrun : kmemCacheAlloc kernelOps s.slabs cache = some (obj, t)) (live : List (Nat × Nat)) :
    Settled ⟨t, live, grown s cache obj⟩ := by
  rcases kmemCacheAlloc_cases hrun with ⟨rfl, rfl⟩ | ⟨c, hc, ⟨hempty, hnew⟩ | ⟨hsource, htaken⟩⟩
  · rw [grown_zero]
    exact ⟨h.listed, h.inHeap, h.distinct, h.aligned, h.next, h.env⟩
  · rcases hnew with ⟨hrun', rfl⟩ | ⟨t₁, hrun', htaken⟩
    · rw [grown_zero]
      exact h.newSlab (hsafe c hc hempty) hrun' live
    · have h₁ := h.newSlab (hsafe c hc hempty) hrun' live
      obtain ⟨hne, c₁, slab, hc₁, hslab, hm⟩ := allocFrom_moves htaken
      have hgrown : grown s cache obj = (cache, s.slabs.nextSlabVirt) :: s.backed := by
        rw [grown, hc]
        simp only [hempty, List.isEmpty_nil, true_and, if_pos hne]
      rw [hgrown]
      exact h₁.moves hm ((h₁.listed cache c₁ hc₁).2 slab hslab) live
  · obtain ⟨-, c₁, slab, hc₁, hslab, hm⟩ := allocFrom_moves htaken
    have hgrown : grown s cache obj = s.backed := by
      rw [grown, hc]
      simp only [List.isEmpty_iff, hsource, false_and, if_false]
    rw [hgrown]
    exact h.moves hm ((h.listed cache c₁ hc₁).2 slab hslab) live

theorem Partitioned.fewer {P Q : Set Nat} {lo : Nat} {k : Kernel} (h : Partitioned P lo k) (hsub : Q ⊆ P) :
    Partitioned Q lo k :=
  ⟨h.integrity, ⟨h.ok.possessed.mono (Set.union_subset_union_right _ hsub),
    fun p hp => h.ok.apart p (hsub hp), h.ok.aligned, h.ok.bound, h.ok.grown⟩, h.live, trivial⟩

theorem Settled.releases (h : Settled s) (hc : s.slabs.caches cache = some c) {slabs : List Nat}
    (hsub : slabs.Sublist c.slabs) :
    ∃ env, releaseSlabs kernelOps slabs s.slabs.env = some env ∧
      Partitioned (slabPages s.backed \ {p | ∃ x ∈ slabs, x / 4096 = p})
        s.slabs.env.heap.heap.currentEnd env := by
  obtain ⟨hnodup, hin⟩ := h.listed cache c hc
  refine releaseSlabs_partitioned slabs h.partitioned (hnodup.sublist hsub) fun x hx => ?_
  have hback := hin x (hsub.subset hx)
  exact ⟨h.aligned _ hback, _, hback, rfl⟩

/-- A slab that is on no list of `slabs` has its page still. -/
theorem Settled.page_kept (h : Settled s) {slabs : List Nat} (hin : ∀ x ∈ slabs, (cache, x) ∈ s.backed)
    {y : Nat × Nat} (hy : y ∈ s.backed) (hout : ¬ (y.1 = cache ∧ y.2 ∈ slabs)) :
    y.2 / 4096 ∈ slabPages s.backed \ {p | ∃ x ∈ slabs, x / 4096 = p} := by
  refine ⟨⟨y, hy, rfl⟩, ?_⟩
  rintro ⟨x, hx, hpage⟩
  have haligned := h.aligned _ (hin x hx)
  have haligned' := h.aligned _ hy
  have hsame : (cache, x) = y := List.inj_on_of_nodup_map h.distinct (hin x hx) hy (by dsimp only at *; omega)
  subst hsame
  exact hout ⟨rfl, hx⟩

/-- `kmem_cache_shrink` gives back the slabs of the free list. -/
theorem Settled.shrink (h : Settled s) (hrun : kmemCacheShrink kernelOps s.slabs cache = some t)
    (live : List (Nat × Nat)) : Settled ⟨t, live, shrunk s cache⟩ := by
  unfold kmemCacheShrink at hrun
  split_ifs at hrun with hnull
  · cases hrun
    have hshrunk : shrunk s cache = s.backed := by
      have hnone : s.slabs.caches cache = none := by
        by_contra hsome
        obtain ⟨c, hc⟩ := Option.ne_none_iff_exists'.mp hsome
        have hlo := (h.inHeap cache c hc).1
        unfold heapStart at hlo
        omega
      rw [shrunk, hnone]
    rw [hshrunk]
    exact ⟨h.listed, h.inHeap, h.distinct, h.aligned, h.next, h.env⟩
  obtain ⟨c, hc, hrun⟩ := Option.bind_eq_some_iff.mp hrun
  obtain ⟨hnodup, hin⟩ := h.listed cache c hc
  have hsub : c.slabsFree.Sublist c.slabs :=
    (List.sublist_append_right _ _).trans (List.sublist_append_right _ _)
  have hfree : ∀ x ∈ c.slabsFree, (cache, x) ∈ s.backed := fun x hx => hin x (hsub.subset hx)
  obtain ⟨env, hrelease, henv⟩ := h.releases hc hsub
  rw [hrelease] at hrun
  cases hrun
  have hmem : ∀ {x}, x ∈ shrunk s cache ↔ x ∈ s.backed ∧ ¬ (x.1 = cache ∧ x.2 ∈ c.slabsFree) := by
    intro x
    rw [shrunk, hc]
    simp only [List.mem_filter, decide_eq_true_eq]
  have hshrunk : (shrunk s cache).Sublist s.backed := by
    rw [shrunk, hc]
    exact List.filter_sublist
  have hgrown := henv.ok.grown
  refine ⟨?_, ?_, h.distinct.sublist (hshrunk.map _), fun x hx => h.aligned x (hmem.mp hx).1, h.next, ?_⟩
  · intro a d hd
    have hd' : Function.update s.slabs.caches cache (some { c with slabsFree := [] }) a = some d := hd
    by_cases ha : a = cache
    · subst ha
      rw [Function.update_self] at hd'
      cases hd'
      have hrest : (KmemCache.slabs { c with slabsFree := [] }).Sublist c.slabs :=
        (List.Sublist.refl _).append ((List.Sublist.refl _).append (List.nil_sublist _))
      refine ⟨hnodup.sublist hrest, fun x hx => hmem.mpr ⟨hin x (hrest.subset hx), ?_⟩⟩
      rintro ⟨-, hx'⟩
      simp only [KmemCache.slabs, List.append_nil] at hx
      rw [KmemCache.slabs, ← List.append_assoc] at hnodup
      exact (List.nodup_append.mp hnodup).2.2 x hx x hx' rfl
    · rw [Function.update_of_ne ha] at hd'
      obtain ⟨hnodup', hin'⟩ := h.listed a d hd'
      exact ⟨hnodup', fun x hx => hmem.mpr ⟨hin' x hx, fun hboth => ha hboth.1⟩⟩
  · exact h.inHeap_update hc hgrown
  · refine (henv.mono (le_trans h.env.ok.grown hgrown)).fewer ?_
    rintro p ⟨y, hy, rfl⟩
    obtain ⟨hback, hout⟩ := hmem.mp hy
    exact h.page_kept hfree hback hout

theorem Settled.shrink_returns (h : Settled s) (hc : s.slabs.caches cache = some c) :
    ∃ t, kmemCacheShrink kernelOps s.slabs cache = some t ∧
      t.caches cache = some { c with slabsFree := [] } ∧
      s.slabs.env.heap.heap.currentEnd ≤ t.env.heap.heap.currentEnd := by
  have hlo := (h.inHeap cache c hc).1
  unfold heapStart at hlo
  obtain ⟨env, hrelease, henv⟩ := h.releases hc
    ((List.sublist_append_right c.slabsPartial _).trans (List.sublist_append_right c.slabsFull _))
  unfold kmemCacheShrink
  rw [if_neg (by omega), hc]
  simp only [Option.bind_eq_bind, Option.bind_some, hrelease]
  exact ⟨_, rfl, Function.update_self .., henv.ok.grown⟩

/-- A block that `kmalloc` just served lies in the heap. -/
theorem kmalloc_inHeap {P : Set Nat} {lo : Nat} {k k' : Kernel} (h : Partitioned P lo k) {size r : Nat}
    (hrun : kernelOps.kmalloc k size = some (r, k')) (hr : r ≠ 0) :
    heapStart ≤ r ∧ r < k'.heap.heap.currentEnd := by
  obtain ⟨bs, hint⟩ := h.integrity
  obtain ⟨r', heap, hmalloc, ⟨bs', hint'⟩, htrack, -⟩ := kmalloc_kernel hint divided_grows h.ok size
  cases hrun.symm.trans hmalloc
  have hsize : 0 < size := by
    refine Nat.pos_of_ne_zero ?_
    rintro rfl
    have hzero : kernelOps.kmalloc k 0 = some (0, k) := rfl
    exact hr (Prod.mk.inj (Option.some.inj (hrun.symm.trans hzero))).1
  have hlive : (r, size) ∈ heap.live := by
    rw [htrack, Heap.track, if_neg hr]
    exact List.mem_cons_self
  obtain ⟨b, hb, rfl, hfit⟩ := hint'.served r size hlive
  have hbounds := hint'.good.layout.addr_bounds (mem_used.mp hb).1
  dsimp only
  unfold Block.payload sizeofBlock
  omega

/-- `kmem_cache_create` takes a block of the heap for the descriptor. -/
theorem Settled.create (h : Settled s) {name : Option Nat} {size align r : Nat}
    {ctor : Option (Mem → Nat → Mem)}
    (hrun : kmemCacheCreate kernelOps s.slabs name size align ctor = some (r, t)) (live : List (Nat × Nat)) :
    Settled ⟨t, live, s.backed⟩ := by
  unfold kmemCacheCreate at hrun
  cases name with
  | none =>
      cases hrun
      exact h.setEnv h.next h.partitioned live
  | some len =>
      dsimp only at hrun
      by_cases hbad : size = 0 ∨ align < slabMinAlign ∨ align &&& (align - 1) ≠ 0
      · rw [if_pos hbad] at hrun
        cases hrun
        exact h.setEnv h.next h.partitioned live
      rw [if_neg hbad] at hrun
      obtain ⟨p, env, hmalloc, hcase⟩ := (kernelOps_allocator divided_grows).kmalloc
        (wrap (sizeofCache + (len + 1))) h.partitioned
      simp only [hmalloc, Option.bind_eq_bind, Option.bind_some] at hrun
      rcases hcase with ⟨rfl, henv⟩ | ⟨hp, -, -, henv⟩
      · rw [if_pos rfl] at hrun
        cases hrun
        exact h.setEnv h.next henv live
      rw [if_neg hp] at hrun
      have hinHeap := kmalloc_inHeap h.partitioned hmalloc hp
      have hkept : Partitioned (slabPages s.backed) s.slabs.env.heap.heap.currentEnd env :=
        ⟨henv.integrity, henv.ok, nofun, trivial⟩
      split_ifs at hrun with hsize hcount
      · cases hrun
        have hfree := (kernelOps_allocator divided_grows).kfree _ env p henv (Set.mem_insert ..)
        exact h.setEnv h.next ⟨hfree.integrity, hfree.ok, nofun, trivial⟩ live
      · cases hrun
        have hgrown := hkept.ok.grown
        refine ⟨?_, ?_, h.distinct, h.aligned, h.next, hkept.mono (le_trans h.env.ok.grown hgrown)⟩
        · intro a d hd
          have hd' : Function.update s.slabs.caches r (some _) a = some d := hd
          by_cases ha : a = r
          · subst ha
            rw [Function.update_self] at hd'
            cases hd'
            exact ⟨List.nodup_nil, nofun⟩
          · rw [Function.update_of_ne ha] at hd'
            exact h.listed a d hd'
        · intro a d hd
          have hd' : Function.update s.slabs.caches r (some _) a = some d := hd
          by_cases ha : a = r
          · rw [ha]
            exact hinHeap
          · rw [Function.update_of_ne ha] at hd'
            obtain ⟨hlo, hhi⟩ := h.inHeap a d hd'
            exact ⟨hlo, lt_of_lt_of_le hhi hgrown⟩

/-- A call of the heap keeps the pages of the slabs. -/
theorem heapCall_partitioned {P : Set Nat} {lo : Nat} {k k' : Kernel} (h : Partitioned P lo k) {op : HeapOp}
    (hop : op.Allowed k.heap) (hrun : heapCall k op = some k') : Partitioned P lo k' := by
  obtain ⟨bs, hint⟩ := h.integrity
  by_cases hcalloc : ∃ num size, op = .kcalloc num size
  · obtain ⟨num, size, rfl⟩ := hcalloc
    -- the product wraps before `kmalloc` sees it
    have hone : 1 * wrap (num * size) < 2 ^ 32 := by
      rw [Nat.one_mul]
      exact wrap_lt _
    obtain ⟨r, c, hexec, hout⟩ := hint.kcalloc divided_grows h.ok hone
    have hsame : Heap.kcalloc machinePages k.heap.heap 1 (wrap (num * size)) =
        Heap.kcalloc machinePages k.heap.heap num size := by
      unfold Heap.kcalloc
      rw [Nat.one_mul, wrap_of_lt (wrap_lt _)]
    rw [HeapOp.exec, hsame, Nat.one_mul] at hexec
    obtain ⟨⟨ptr, heap⟩, hcall, heq⟩ := Option.bind_eq_some_iff.mp hexec
    cases heq
    rw [heapCall, hcall] at hrun
    cases hrun
    exact ⟨hout.integrity, hout.ok, fun _ ha => absurd ha (Set.notMem_empty _), trivial⟩
  · have hfit : op.NoOverflow := by
      cases op with
      | kcalloc num size => exact absurd ⟨num, size, rfl⟩ hcalloc
      | _ => trivial
    obtain ⟨r, c, hexec, hout, -⟩ := hint.step divided_grows h.ok hop hfit
    have hcall : heapCall k op = (op.exec machinePages k.heap).map fun x => { k with heap := x.2 } := by
      cases op with
      | kcalloc num size => exact absurd ⟨num, size, rfl⟩ hcalloc
      | _ => rfl
    rw [hcall, hexec] at hrun
    cases hrun
    exact ⟨hout.integrity, hout.ok, fun _ ha => absurd ha (Set.notMem_empty _), trivial⟩

/-- A safe call keeps slabs and heap apart. -/
theorem Settled.step (h : Settled s) {call : MemoryCall} {s' : Client Kernel}
    (hstep : SafeMemoryStep s call s') : Settled s' := by
  obtain ⟨hsafe, hop, hexec⟩ := hstep
  cases call with
  | heap op =>
      obtain ⟨env, hrun, rfl⟩ := Option.map_eq_some_iff.mp hexec
      exact h.setEnv h.next (heapCall_partitioned h.partitioned hop hrun) _
  | slab op =>
      obtain ⟨⟨r, s₁⟩, hrun, rfl⟩ := Option.map_eq_some_iff.mp hexec
      cases op with
      | create name size align ctor =>
          obtain ⟨⟨cache, t⟩, hcreate, heq⟩ := Option.bind_eq_some_iff.mp hrun
          cases heq
          exact h.create hcreate _
      | alloc cache =>
          obtain ⟨⟨obj, t⟩, halloc, heq⟩ := Option.bind_eq_some_iff.mp hrun
          cases heq
          exact h.alloc hsafe halloc _
      | free cache obj =>
          obtain ⟨t, hfree, heq⟩ := Option.bind_eq_some_iff.mp hrun
          cases heq
          rcases kmemCacheFree_moves hfree with rfl | ⟨howner, hm⟩
          · exact h.setEnv h.next h.partitioned _
          · exact h.moves hm (hsafe howner) _
      | shrink cache =>
          obtain ⟨t, hshrink, heq⟩ := Option.bind_eq_some_iff.mp hrun
          cases heq
          exact h.shrink hshrink _
      | write cache obj i v =>
          cases hrun
          exact ⟨h.listed, h.inHeap, h.distinct, h.aligned, h.next, h.env⟩
  | destroy cache =>
      obtain rfl : cache = 0 := hsafe
      unfold MemoryCall.exec at hexec
      obtain ⟨t, hdestroy, rfl⟩ := Option.map_eq_some_iff.mp hexec
      rw [kmemCacheDestroy, if_pos rfl] at hdestroy
      cases hdestroy
      have hsub : (s.backed.filter fun x => x.1 ≠ 0).Sublist s.backed := List.filter_sublist
      refine ⟨?_, h.inHeap, h.distinct.sublist (hsub.map _), fun x hx => h.aligned x (hsub.subset hx), h.next,
        h.env.fewer fun p ⟨x, hx, hp⟩ => ⟨x, hsub.subset hx, hp⟩⟩
      intro a d hd
      obtain ⟨hnodup, hin⟩ := h.listed a d hd
      have hlo := (h.inHeap a d hd).1
      unfold heapStart at hlo
      exact ⟨hnodup, fun x hx => List.mem_filter.mpr ⟨hin x hx, by simpa using (by omega : a ≠ 0)⟩⟩

/-- The slabs of a cache are given back, but with the page of the descriptor the heap loses
one of its own. -/
theorem Settled.destroyRest (h : Settled s) (hc : s.slabs.caches cache = some c) :
    ∃ t, Slab.destroyRest kernelOps cache s.slabs = some t ∧ ¬ HeapMapped t.env := by
  obtain ⟨hlo, hhi⟩ := h.inHeap cache c hc
  obtain ⟨k, hrelease, hk⟩ := h.releases hc (List.Sublist.refl c.slabs)
  have hslabs : c.slabsFull ++ c.slabsPartial ++ c.slabsFree = c.slabs := List.append_assoc ..
  have hsound := hk.ok.possessed.booted.toSound
  have hgrown := hk.ok.grown
  have hpage : cache / 4096 ∈ heapPages k.heap.heap.currentEnd := by
    have haligned := hk.ok.aligned
    exact ⟨Nat.div_le_div_right hlo, by omega⟩
  have hbelow := hk.ok.possessed.below _ (Or.inl hpage)
  obtain ⟨f, hf, -⟩ := hk.ok.possessed.mapped _ (Or.inl hpage)
  obtain ⟨st, m', hunmap, hgone⟩ := @vmmUnmapPage_anywhere _ hsound cache
    (Nat.lt_of_le_of_lt hbelow (by decide))
  have hops : kernelOps.vmmUnmapPage k cache = some (st, k.setMachine m') := by
    change (vmmUnmapPage k.machine cache).map _ = _
    rw [hunmap]
    rfl
  unfold Slab.destroyRest
  simp only [hc, hslabs, hrelease, kernelOps_lookup hsound hbelow hf, hops, Option.bind_eq_bind,
    Option.bind_some]
  refine ⟨_, rfl, fun hmapped => ?_⟩
  obtain ⟨g, hg, -⟩ := hmapped (cache / 4096) hpage
  cases hgone.gone.symm.trans hg

theorem Settled.destroy (h : Settled s) (hc : s.slabs.caches cache = some c) :
    ∃ t, kmemCacheDestroy kernelOps s.slabs cache = some t ∧ ¬ HeapMapped t.env := by
  have hlo := (h.inHeap cache c hc).1
  unfold heapStart at hlo
  rw [kmemCacheDestroy_eq (by omega) hc]
  by_cases hidle : c.slabsFull.isEmpty ∧ c.slabsPartial.isEmpty
  · rw [if_pos hidle]
    exact h.destroyRest hc
  · rw [if_neg hidle]
    obtain ⟨t, hshrink, hct, -⟩ := h.shrink_returns hc
    rw [hshrink]
    exact (h.shrink hshrink s.live).destroyRest hct

end Steps

/-- The kernel after `heap_init` and `slab_init`. -/
def Client.boot (h : KernelHeap Machine) (mem : Mem) : Client Kernel := Client.init mem ⟨⟨h, []⟩, []⟩

theorem boot_heap {m : Machine} (hm : Booted m) {mem : Mem} {h : KernelHeap Machine}
    (hinit : heapInit machinePages mem m = some (.ok, h)) :
    ∃ b, @Integrity Machine ⟨h, []⟩ [b] ∧ b.free = true ∧
      Divided (slabPages []) heapStart h.currentEnd h.env := by
  have hnobody : heapPages heapStart ∪ (slabPages [] : Set Nat) = ∅ := by
    ext q
    simp only [heapPages, slabPages, Set.mem_union, Set.mem_ofPred_eq, List.not_mem_nil, false_and,
      exists_false, or_false, Set.mem_empty_iff_false, iff_false]
    omega
  have hstart : Divided (slabPages []) heapStart heapStart m := by
    refine ⟨?_, ?_, by decide, by decide, le_rfl⟩
    · rw [hnobody]
      exact ⟨hm, nofun, nofun, nofun⟩
    · rintro p ⟨x, hx, -⟩
      exact absurd hx List.not_mem_nil
  obtain ⟨b, hg, hb, hok⟩ := heapInit_spec divided_grows hstart hinit
  exact ⟨b, ⟨hg, List.isChain_singleton _, nofun, List.nodup_nil⟩, hb, hok⟩

theorem Settled.boot {m : Machine} (hm : Booted m) {mem mem' : Mem} {h : KernelHeap Machine}
    (hinit : heapInit machinePages mem m = some (.ok, h)) : Settled (Client.boot h mem') := by
  obtain ⟨b, hint, -, hok⟩ := boot_heap hm hinit
  exact ⟨nofun, nofun, List.nodup_nil, nofun, (by decide : slabVirtStart % 4096 = 0),
    ⟨[b], hint⟩, hok, nofun, trivial⟩

/-- In every run without the errors above the pages of the heap stay mapped to allocated
frames; destroying any cache that exists puts an end to that. -/
theorem heap_pages_run {m : Machine} (hm : Booted m) {mem mem' : Mem} {h : KernelHeap Machine}
    (hinit : heapInit machinePages mem m = some (.ok, h)) {s : Client Kernel}
    (run : Transition.Run SafeMemoryStep (Client.boot h mem') s) :
    HeapMapped s.slabs.env ∧ ∀ cache c, s.slabs.caches cache = some c →
      ∃ t, MemoryStep s (.destroy cache) t ∧ ¬ HeapMapped t.slabs.env := by
  have hs : Settled s := run.invariant (fun _ _ _ hstep hs => hs.step hstep) (Settled.boot hm hinit)
  refine ⟨hs.env.heapMapped, fun cache c hc => ?_⟩
  obtain ⟨t, hdestroy, hbroken⟩ := hs.destroy hc
  exact ⟨_, ⟨trivial, by rw [MemoryCall.exec, hdestroy]; rfl⟩, hbroken⟩

/-- Eight megabytes: the directory in frame 5, and the page tables for the kernel and for the
first eight megabytes of the heap in frames 2 to 4. -/
def roomyMachine : Machine :=
  { pmm :=
      { bitsAddr := 0x200000, bits := fun byte => if byte = 0 then 0x3F#8 else 0#8, size := 256
        totalPages := 2048, freePages := 2042, usedPages := 6 }
    frames := fun f i =>
      if f = 5 then
        if i = 0 then 0x2003#32 else if i = 0x340 then 0x3003#32 else if i = 0x341 then 0x4003#32
        else if i = 1023 then 0x5003#32 else 0
      else 0
    cr3 := 5, kernelPageDirectory := 5, pagingEnabled := true }

theorem roomyMachine_table {i : Nat} (hi : i < 1023) :
    roomyMachine.table i =
      if i = 0 then some 2 else if i = 0x340 then some 3 else if i = 0x341 then some 4 else none := by
  by_cases hzero : i = 0
  · subst hzero
    decide
  by_cases hfirst : i = 0x340
  · subst hfirst
    decide
  by_cases hsecond : i = 0x341
  · subst hsecond
    decide
  have hword : roomyMachine.word 5 i = 0 := by
    simp [Machine.word, roomyMachine, hi.ne, hzero, hfirst, hsecond]
  unfold Machine.table
  rw [show roomyMachine.cr3 = 5 from rfl, hword, if_neg hzero, if_neg hfirst, if_neg hsecond]
  rfl

theorem roomyMachine_booted : Booted roomyMachine := by
  refine ⟨⟨rfl, ⟨by decide, by decide, by decide, ?_, by decide +kernel, by decide⟩,
    ⟨by decide, ?_, ?_, ?_⟩, by decide⟩, by decide⟩
  · intro b hb hbs
    exact absurd hbs (Nat.not_lt.mpr hb)
  · intro i hi f hf
    rw [roomyMachine_table hi] at hf
    split_ifs at hf <;> cases hf <;> decide
  · intro i hi j hj f hf hf'
    rw [roomyMachine_table hi] at hf
    rw [roomyMachine_table hj] at hf'
    split_ifs at hf hf' <;> simp only [Option.some.injEq] at hf hf' <;> omega
  · intro i hi hf
    rw [roomyMachine_table hi] at hf
    split_ifs at hf <;> cases hf

/-- The first attempt to back the heap succeeds. -/
theorem roomyMachine_expands :
    ∃ m', Heap.expandOnce machinePages roomyMachine heapStart 1025 = some (true, m') := by
  rcases @expandOnce_spec _ roomyMachine_booted heapStart (by decide) (by decide) 1025 with
    ⟨m', -, -, hwhy⟩ | ⟨m', a, hrun, -⟩
  · exfalso
    rcases hwhy (by decide) with hfull | hwindow | ⟨j, hj, hpage⟩
    · refine hfull 6 fun i hi => ⟨?_, ?_⟩
      · change 6 + i < 2048
        omega
      · change ((if (6 + i) / 8 = 0 then 0x3F#8 else 0#8) : BitVec 8).getLsbD ((6 + i) % 8) = false
        by_cases hbyte : (6 + i) / 8 = 0
        · rw [if_pos hbyte]
          obtain rfl | rfl : i = 0 ∨ i = 1 := by omega
          · decide
          · decide
        · rw [if_neg hbyte]
          exact BitVec.getLsbD_zero
    · exact absurd hwindow (by decide)
    · have hregion : (heapStart / 4096 + j) / 1024 = 0x340 ∨ (heapStart / 4096 + j) / 1024 = 0x341 := by
        unfold heapStart
        omega
      have htable : ∃ t, roomyMachine.table ((heapStart / 4096 + j) / 1024) = some t ∧ t ≠ 5 := by
        rcases hregion with hregion | hregion <;> rw [hregion]
        · exact ⟨3, by decide, by decide⟩
        · exact ⟨4, by decide, by decide⟩
      obtain ⟨t, ht, hne⟩ := htable
      rcases hpage with hpage | hpage
      · refine hpage ?_
        rw [tr_of_table ht]
        have hword : roomyMachine.word t ((heapStart / 4096 + j) % 1024) = 0 := by
          simp [Machine.word, roomyMachine, hne]
        unfold Machine.slot
        rw [hword]
        rfl
      · cases hpage.symm.trans ht
  · exact ⟨m', hrun⟩

theorem roomyMachine_init : ∃ h, heapInit machinePages (fun _ => 0#8) roomyMachine = some (.ok, h) := by
  obtain ⟨m', hrun⟩ := roomyMachine_expands
  rw [heapInit, heapExpand, show alignUp (wrap (initialHeapSize + sizeofBlock)) 4096 = 1025 * 4096 by decide,
    expandRetry, Nat.mul_div_cancel 1025 (by decide : 0 < 4096), hrun]
  simp only [Option.bind_eq_bind, Option.bind_some, if_true, appendBlock]
  exact ⟨_, rfl⟩

theorem boot_creates {m : Machine} (hm : Booted m) {mem : Mem} {h : KernelHeap Machine}
    (hinit : heapInit machinePages mem m = some (.ok, h)) (mem' : Mem) :
    ∃ t cache c, SafeMemoryStep (Client.boot h mem') (.slab (.create (some 3) 2000 8 none)) t ∧
      t.slabs.caches cache = some c := by
  obtain ⟨b, hint, hfree, -⟩ := boot_heap hm hinit
  have hfit : b.Fits 60 := by
    have htiles := hint.good.layout.tiles
    have haligned : h.currentEnd % 4096 = 0 := hint.good.aligned
    have hstarted : heapStart < h.currentEnd := hint.good.started
    simp only [Tiling.Tiles, Block.len, sizeofBlock] at htiles
    unfold heapStart at hstarted htiles
    exact ⟨hfree, by omega⟩
  obtain ⟨r, heap, hrun, hr, -⟩ := @Heap.Integrity.kmalloc_fits _ machinePages _ _ hint 60 (by decide) b
    List.mem_cons_self hfit
  have hmalloc : kernelOps.kmalloc ⟨⟨h, []⟩, []⟩ 60 =
      some (r, ⟨⟨{ h with mem := heap }, Heap.track [] r 60⟩, []⟩) := by
    simp only [kernelOps, hrun, Option.map_some]
  obtain ⟨t, hcreate, hc⟩ : ∃ t,
      kmemCacheCreate kernelOps (Client.boot h mem').slabs (some 3) 2000 8 none = some (r, t) ∧
      t.caches r = some ⟨2000, 8, none, 2, [], [], []⟩ := by
    unfold kmemCacheCreate
    dsimp only
    rw [if_neg (by decide), show (Client.boot h mem').slabs.env = ⟨⟨h, []⟩, []⟩ from rfl,
      show wrap (sizeofCache + (3 + 1)) = 60 by decide, hmalloc]
    simp only [Option.bind_eq_bind, Option.bind_some]
    rw [if_neg hr, if_neg (by decide), if_neg (by decide)]
    exact ⟨_, rfl, Function.update_self ..⟩
  refine ⟨⟨t, [], []⟩, r, _, ⟨trivial, trivial, ?_⟩, hc⟩
  rw [MemoryCall.exec, SlabOp.exec, hcreate]
  rfl

/-- A cache is created and destroyed. -/
theorem destroy_unmaps_heap_page :
    ∃ h s, heapInit machinePages (fun _ => 0#8) roomyMachine = some (.ok, h) ∧
      Transition.Run MemoryStep (Client.boot h fun _ => 0#8) s ∧ ¬ HeapMapped s.slabs.env := by
  obtain ⟨h, hinit⟩ := roomyMachine_init
  obtain ⟨t, cache, c, hcreate, hc⟩ := boot_creates roomyMachine_booted hinit fun _ => 0#8
  have ht : Settled t := (Settled.boot roomyMachine_booted hinit).step hcreate
  obtain ⟨u, hdestroy, hbroken⟩ := ht.destroy hc
  refine ⟨h, ⟨u, t.live, t.backed.filter fun x => x.1 ≠ cache⟩, hinit,
    ((Transition.Run.refl _).snoc hcreate.2).snoc (a := .destroy cache) ⟨trivial, ?_⟩, hbroken⟩
  rw [MemoryCall.exec, hdestroy]
  rfl

theorem heap_pages_run_roomy :
    ∃ h s cache c, heapInit machinePages (fun _ => 0#8) roomyMachine = some (.ok, h) ∧
      Transition.Run SafeMemoryStep (Client.boot h fun _ => 0#8) s ∧ s.slabs.caches cache = some c ∧
      HeapMapped s.slabs.env ∧ ∃ t, MemoryStep s (.destroy cache) t ∧ ¬ HeapMapped t.slabs.env := by
  obtain ⟨h, hinit⟩ := roomyMachine_init
  obtain ⟨s, cache, c, hcreate, hc⟩ := boot_creates roomyMachine_booted hinit fun _ => 0#8
  have hrun : Transition.Run SafeMemoryStep (Client.boot h fun _ => 0#8) s :=
    (Transition.Run.refl _).snoc hcreate
  obtain ⟨hmapped, hdestroy⟩ := heap_pages_run roomyMachine_booted hinit hrun
  exact ⟨h, s, cache, c, hinit, hrun, hc, hmapped, hdestroy cache c hc⟩

end Frostix.Slab
