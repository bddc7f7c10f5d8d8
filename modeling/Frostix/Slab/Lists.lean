import Frostix.Misc.List
import Frostix.Slab.Caches

/-!
The three slab lists of a cache as linked nodes: the heads lie in the descriptor, the
entries in the headers of the slabs. What the model does to the sequences is what the calls
of `list.h` do to the nodes. -/
namespace Frostix.Slab

open Circular Misc

/-- `&cache->slabs_full` and the heads behind it. -/
def fullHead (cache : Nat) : Nat := cache + 24

def partialHead (cache : Nat) : Nat := cache + 32

def freeHead (cache : Nat) : Nat := cache + 40

/-- `&slab->list`. -/
def slabNode (slab : Nat) : Nat := slab + 12

structure CacheLists (F : Family Nat) (cache : Nat) (c : KmemCache) : Prop where
  full : F (fullHead cache) = some (c.slabsFull.map slabNode)
  part : F (partialHead cache) = some (c.slabsPartial.map slabNode)
  free : F (freeHead cache) = some (c.slabsFree.map slabNode)

variable {F : Family Nat} {m : Nodes} {cache slab : Nat} {c : KmemCache}

theorem erase_slabNode (l : List Nat) (slab : Nat) :
    (l.map slabNode).erase (slabNode slab) = (l.erase slab).map slabNode :=
  (List.map_erase (add_left_injective 12) l).symm

/-- `list_del` of a slab. -/
theorem CacheLists.unlink (hc : CacheLists F cache c) (slab : Nat) :
    CacheLists (F.remove (slabNode slab)) cache (c.unlink slab) where
  full := by rw [Family.remove, hc.full, Option.map_some, erase_slabNode]; rfl
  part := by rw [Family.remove, hc.part, Option.map_some, erase_slabNode]; rfl
  free := by rw [Family.remove, hc.free, Option.map_some, erase_slabNode]; rfl

theorem CacheLists.setFull (hc : CacheLists F cache c) (l : List Nat) :
    CacheLists (Function.update F (fullHead cache) (some (l.map slabNode))) cache { c with slabsFull := l } where
  full := Function.update_self _ _ _
  part := (Function.update_of_ne (by simp [partialHead, fullHead]) _ _).trans hc.part
  free := (Function.update_of_ne (by simp [freeHead, fullHead]) _ _).trans hc.free

theorem CacheLists.setPartial (hc : CacheLists F cache c) (l : List Nat) :
    CacheLists (Function.update F (partialHead cache) (some (l.map slabNode))) cache { c with slabsPartial := l } where
  full := (Function.update_of_ne (by simp [partialHead, fullHead]) _ _).trans hc.full
  part := Function.update_self _ _ _
  free := (Function.update_of_ne (by simp [freeHead, partialHead]) _ _).trans hc.free

theorem CacheLists.setFree (hc : CacheLists F cache c) (l : List Nat) :
    CacheLists (Function.update F (freeHead cache) (some (l.map slabNode))) cache { c with slabsFree := l } where
  full := (Function.update_of_ne (by simp [fullHead, freeHead]) _ _).trans hc.full
  part := (Function.update_of_ne (by simp [partialHead, freeHead]) _ _).trans hc.part
  free := Function.update_self _ _ _

theorem CacheLists.home (hc : CacheLists F cache c) (hslab : slab ∈ c.slabs) :
    ∃ home es, F home = some es ∧ slabNode slab ∈ es := by
  rcases List.mem_append.mp hslab with hfull | hrest
  · exact ⟨_, _, hc.full, List.mem_map_of_mem hfull⟩
  · rcases List.mem_append.mp hrest with hpart | hfree
    · exact ⟨_, _, hc.part, List.mem_map_of_mem hpart⟩
    · exact ⟨_, _, hc.free, List.mem_map_of_mem hfree⟩

theorem requeued (l : List Nat) (slab : Nat) :
    (l.map slabNode).erase (slabNode slab) ++ [slabNode slab] = (l.erase slab ++ [slab]).map slabNode := by
  rw [erase_slabNode, List.map_append, List.map_singleton]

/-- The list calls of `kmem_cache_free`: to the free slabs, or to the partial ones. -/
theorem kmemCacheFree_lists (hm : Lists m F) (hc : CacheLists F cache c)
    (hslab : slab ∈ c.slabs) :
    let m' := listDelInit m (slabNode slab)
    let c' := c.unlink slab
    (∃ F', Lists (listAddTail m' (slabNode slab) (freeHead cache)) F' ∧
      CacheLists F' cache { c' with slabsFree := c'.slabsFree ++ [slab] }) ∧
    ∃ F', Lists (listAddTail m' (slabNode slab) (partialHead cache)) F' ∧
      CacheLists F' cache { c' with slabsPartial := c'.slabsPartial ++ [slab] } := by
  obtain ⟨home, es, hhome, hentry⟩ := hc.home hslab
  have hfree := hm.requeue hhome hentry hc.free
  have hpart := hm.requeue hhome hentry hc.part
  rw [requeued] at hfree hpart
  exact ⟨⟨_, hfree, (hc.unlink slab).setFree _⟩, ⟨_, hpart, (hc.unlink slab).setPartial _⟩⟩

/-- `kmem_cache_alloc` takes a slab off the first list that is not empty, and moves one that became full. -/
theorem kmemCacheAlloc_lists (hm : Lists m F) (hc : CacheLists F cache c)
    (hslab : slab ∈ c.slabs) :
    let c' := c.unlink slab
    (listEmpty m (partialHead cache) = true ↔ c.slabsPartial.isEmpty = true) ∧
    ∃ F', Lists (listMoveTail m (slabNode slab) (fullHead cache)) F' ∧
      CacheLists F' cache { c' with slabsFull := c'.slabsFull ++ [slab] } := by
  obtain ⟨home, es, hhome, hentry⟩ := hc.home hslab
  have hfull := (hm.moves hhome hentry hc.full).2
  rw [requeued] at hfull
  refine ⟨?_, _, hfull, (hc.unlink slab).setFull _⟩
  rw [hm.empty_iff hc.part, List.map_eq_nil_iff, List.isEmpty_iff]

theorem kmemCacheFree_linked {σ : Type} {s t : Slabs σ} {obj : Nat} (h : kmemCacheFree s cache obj = some t)
    (hm : Lists m F) (hcache : s.caches cache = some c) (hc : CacheLists F cache c)
    (hslab : objToSlab obj ∈ c.slabs) :
    ∃ m' F' c', t.caches cache = some c' ∧ Lists m' F' ∧ CacheLists F' cache c' ∧
      (m' = m ∨ ∃ head ∈ [freeHead cache, partialHead cache],
        m' = listAddTail (listDelInit m (slabNode (objToSlab obj))) (slabNode (objToSlab obj)) head) := by
  obtain ⟨⟨F₁, hfree, hc₁⟩, F₂, hpart, hc₂⟩ := kmemCacheFree_lists hm hc hslab
  rcases kmemCacheFree_cases h with rfl | ⟨-, rfl | ⟨d, mem, hd, hmoved⟩⟩
  · exact ⟨m, F, c, hcache, hm, hc, Or.inl rfl⟩
  · exact ⟨m, F, c, hcache, hm, hc, Or.inl rfl⟩
  · cases hcache.symm.trans hd
    rcases hmoved with rfl | rfl
    · exact ⟨_, F₁, _, Function.update_self _ _ _, hfree, hc₁, Or.inr ⟨_, by simp, rfl⟩⟩
    · exact ⟨_, F₂, _, Function.update_self _ _ _, hpart, hc₂, Or.inr ⟨_, by simp, rfl⟩⟩

theorem allocFrom_linked {σ : Type} {s t : Slabs σ} {obj : Nat} (h : allocFrom s cache = some (obj, t))
    (hm : Lists m F) (hcache : s.caches cache = some c) (hc : CacheLists F cache c) :
    ∃ m' F' c', t.caches cache = some c' ∧ Lists m' F' ∧ CacheLists F' cache c' ∧
      (m' = m ∨ ∃ slab, m' = listMoveTail m (slabNode slab) (fullHead cache)) := by
  obtain ⟨d, slab, mem, hd, hsource, -, hmoved⟩ := allocFrom_cases h
  cases hcache.symm.trans hd
  rcases hmoved with rfl | rfl
  · obtain ⟨-, F', hfull, hc'⟩ := kmemCacheAlloc_lists hm hc (source_mem (List.mem_of_mem_head? hsource))
    exact ⟨_, F', _, Function.update_self _ _ _, hfull, hc', Or.inr ⟨slab, rfl⟩⟩
  · exact ⟨m, F, c, hcache, hm, hc, Or.inl rfl⟩

end Frostix.Slab
