import Frostix.Slab.Runs

/-!
Runs over caches that fit their pages. Calls keep the caches with their geometry, so it is enough
that every cache fits when it is created. -/
namespace Frostix.Slab
open Machine32 ByteMemory

variable {σ : Type}

/-- The objects of the cache lie in their page and have room for a link. -/
structure Geometry (c : KmemCache) : Prop where
  page : firstObjOff c.align + c.objectsPerSlab * c.objectSize ≤ 4096
  size : 8 ≤ c.objectSize
  align : c.align ≤ 4096

/-- Every cache fits its pages, and its constructor writes into its object only. -/
def Fitting (s : Client σ) : Prop :=
  ∀ cache c, s.slabs.caches cache = some c → Geometry c ∧ CtorOk c.ctor c.objectSize

/-- A call other than `kmem_cache_shrink`, on caches that fit their pages. -/
def FitStep (ops : MmOps σ) (s : Client σ) (op : SlabOp) (s' : Client σ) : Prop :=
  SlabStep ops s op s' ∧ (∀ cache, op ≠ .shrink cache) ∧ Fitting s'

section Kept

variable {ops : MmOps σ} {s t : Slabs σ} {cache : Nat} {c : KmemCache}

theorem SameGeometry.refl (c : KmemCache) : SameGeometry c c := ⟨rfl, rfl, rfl, rfl⟩

theorem SameGeometry.trans {c₁ c₂ c₃ : KmemCache} (h : SameGeometry c₁ c₂) (h' : SameGeometry c₂ c₃) :
    SameGeometry c₁ c₃ :=
  ⟨h'.objectSize.trans h.objectSize, h'.align.trans h.align, h'.ctor.trans h.ctor,
    h'.objectsPerSlab.trans h.objectsPerSlab⟩

def SameCaches (s t : Slabs σ) : Prop := ∀ k, Option.Rel SameGeometry (s.caches k) (t.caches k)

theorem SameCaches.of_eq (h : t.caches = s.caches) : SameCaches s t := by
  intro k
  rw [h]
  cases s.caches k with
  | none => exact .none
  | some c => exact .some (.refl c)

theorem SameCaches.trans {u : Slabs σ} (h : SameCaches s t) (h' : SameCaches t u) : SameCaches s u := by
  intro k
  have hst := h k
  have htu := h' k
  cases hs : s.caches k with
  | none =>
      rw [hs] at hst
      cases ht : t.caches k with
      | none => rw [ht] at htu; exact htu
      | some d => rw [ht] at hst; cases hst
  | some c =>
      rw [hs] at hst
      cases ht : t.caches k with
      | none => rw [ht] at hst; cases hst
      | some d =>
          rw [ht] at hst htu
          cases hu : u.caches k with
          | none => rw [hu] at htu; cases htu
          | some e =>
              rw [hu] at htu
              cases hst with
              | some hst => cases htu with
                | some htu => exact .some (hst.trans htu)

theorem SameCaches.setCache (hc : s.caches cache = some c) {c' : KmemCache} (hgeo : SameGeometry c c')
    (h : t.caches = s.caches) : SameCaches s (t.setCache cache c') := by
  intro k
  change Option.Rel _ _ (Function.update t.caches cache (some c') k)
  by_cases hk : k = cache
  · rw [hk, hc, Function.update_self]
    exact .some hgeo
  · rw [Function.update_of_ne hk]
    exact SameCaches.of_eq h k

theorem SameCaches.known (h : SameCaches s t) {k : Nat} (hk : s.caches k ≠ none) : t.caches k ≠ none := by
  have hrel := h k
  intro hnone
  rw [hnone] at hrel
  cases hs : s.caches k with
  | none => exact hk hs
  | some c =>
      rw [hs] at hrel
      cases hrel

theorem allocFrom_caches {obj : Nat} (h : allocFrom s cache = some (obj, t)) : SameCaches s t := by
  obtain ⟨c, slab, mem, hc, -, -, rfl | rfl⟩ := allocFrom_cases h
  · exact .setCache hc ⟨rfl, rfl, rfl, rfl⟩ rfl
  · exact .of_eq rfl

theorem newSlab_caches {ready : Bool} (h : newSlab ops s cache = some (ready, t)) : SameCaches s t := by
  unfold newSlab at h
  obtain ⟨⟨backing, env⟩, -, h⟩ := Option.bind_eq_some_iff.mp h
  cases backing with
  | noFrame =>
      cases h
      exact .of_eq rfl
  | refused =>
      cases h
      exact .of_eq rfl
  | mapped =>
      obtain ⟨c, hc, h⟩ := Option.bind_eq_some_iff.mp h
      cases h
      exact .setCache hc ⟨rfl, rfl, rfl, rfl⟩ rfl

theorem kmemCacheAlloc_caches {obj : Nat} (h : kmemCacheAlloc ops s cache = some (obj, t)) :
    SameCaches s t := by
  rcases kmemCacheAlloc_cases h with ⟨-, rfl⟩ | ⟨c, -, ⟨-, ⟨hnew, -⟩ | ⟨u, hnew, htaken⟩⟩ | ⟨-, htaken⟩⟩
  · exact .of_eq rfl
  · exact newSlab_caches hnew
  · exact (newSlab_caches hnew).trans (allocFrom_caches htaken)
  · exact allocFrom_caches htaken

theorem kmemCacheFree_caches {obj : Nat} (h : kmemCacheFree s cache obj = some t) : SameCaches s t := by
  rcases kmemCacheFree_cases h with rfl | ⟨-, rfl | ⟨c, mem, hc, rfl | rfl⟩⟩
  · exact .of_eq rfl
  · exact .of_eq rfl
  -- the slab goes to the free or to the partial list
  · exact .setCache hc ⟨rfl, rfl, rfl, rfl⟩ rfl
  · exact .setCache hc ⟨rfl, rfl, rfl, rfl⟩ rfl

end Kept

theorem Fitting.keep {s s' : Client σ} (h : Fitting s) (hsame : SameCaches s.slabs s'.slabs) :
    Fitting s' := by
  intro k d hd
  have hrel := hsame k
  rw [hd] at hrel
  cases hs : s.slabs.caches k with
  | none =>
      rw [hs] at hrel
      cases hrel
  | some c =>
      rw [hs] at hrel
      cases hrel with
      | some hgeo =>
          obtain ⟨⟨hpage, hsize, halign⟩, hctor⟩ := h k c hs
          rw [hgeo.objectSize, hgeo.ctor]
          refine ⟨⟨?_, ?_, ?_⟩, hctor⟩
          · rw [hgeo.align, hgeo.objectsPerSlab, hgeo.objectSize]
            exact hpage
          · rw [hgeo.objectSize]
            exact hsize
          · rw [hgeo.align]
            exact halign

/-- The cache that `kmem_cache_create` makes. -/
def created (size align : Nat) (ctor : Option (Mem → Nat → Mem)) : KmemCache :=
  ⟨alignUp size align, align, ctor, wsub 4096 (firstObjOff align) / alignUp size align, [], [], []⟩

theorem Fitting.create {ops : MmOps σ} {s : Client σ} (h : Fitting s) {name : Option Nat} {size align r : Nat}
    {ctor : Option (Mem → Nat → Mem)} {t : Slabs σ}
    (hrun : kmemCacheCreate ops s.slabs name size align ctor = some (r, t))
    (hgeo : Geometry (created size align ctor)) (hctor : CtorOk ctor (alignUp size align)) :
    Fitting ⟨t, s.live, s.backed⟩ := by
  unfold kmemCacheCreate at hrun
  cases name with
  | none =>
      cases hrun
      exact h
  | some len =>
      dsimp only at hrun
      by_cases hbad : size = 0 ∨ align < slabMinAlign ∨ align &&& (align - 1) ≠ 0
      · rw [if_pos hbad] at hrun
        cases hrun
        exact h
      rw [if_neg hbad] at hrun
      obtain ⟨⟨cache, env⟩, -, hrun⟩ := Option.bind_eq_some_iff.mp hrun
      dsimp only at hrun
      split_ifs at hrun
      · cases hrun
        exact h
      · cases hrun
        exact h
      · cases hrun
        intro k d hd
        have hd' : Function.update s.slabs.caches r (some (created size align ctor)) k = some d := hd
        by_cases hk : k = r
        · rw [hk, Function.update_self] at hd'
          cases hd'
          exact ⟨hgeo, hctor⟩
        · rw [Function.update_of_ne hk] at hd'
          exact h k d hd'

structure PagedEnv where
  nextStruct : Nat
  nextFrame : Nat
  pages : List (Nat × Nat)

/-- Structs and frames one after the other, and pages that are mapped at most once. -/
def pagedOps : MmOps PagedEnv where
  kmalloc := fun s _ =>
    if s.nextStruct < 2 ^ 32 then some (s.nextStruct, { s with nextStruct := s.nextStruct + 32 }) else some (0, s)
  kfree := fun s _ => s
  pmmAllocPage := fun s =>
    if s.nextFrame < 2 ^ 32 then (s.nextFrame, { s with nextFrame := s.nextFrame + 4096 }) else (0, s)
  pmmFreePage := fun s _ => s
  vmmMapPage := fun s virt phys _ =>
    if (s.pages.lookup virt).isSome then some (.alreadyMapped, s)
    else some (.ok, { s with pages := (virt, phys) :: s.pages })
  vmmUnmapPage := fun s virt => some (.ok, { s with pages := s.pages.filter (·.1 != virt) })
  vmmGetPhysicalAddr := fun s virt => some ((s.pages.lookup virt).getD 0)

def pagedStart : PagedEnv := ⟨0xD0000014, 0x400000, []⟩

/-- The state after `slab_init` and some calls, from cleared memory. -/
def pagedRun : List SlabOp → Option (Client PagedEnv) :=
  Transition.execAll (fun op s => op.exec pagedOps s) (some (Client.init (fun _ => 0#8) pagedStart))

def Reached (s : Client PagedEnv) : Prop :=
  Fitting s ∧ Transition.Run (FitStep pagedOps) (Client.init (fun _ => 0#8) pagedStart) s

theorem Reached.create {s s' : Client PagedEnv} (h : Reached s) {name : Option Nat} {size align r : Nat}
    {ctor : Option (Mem → Nat → Mem)}
    (hexec : (SlabOp.create name size align ctor).exec pagedOps s = some (r, s'))
    (hgeo : Geometry (created size align ctor)) (hctor : CtorOk ctor (alignUp size align)) : Reached s' := by
  obtain ⟨⟨cache, t⟩, hcreate, heq⟩ := Option.bind_eq_some_iff.mp hexec
  have hfits := h.1.create hcreate hgeo hctor
  have hstate := (Prod.mk.inj (Option.some.inj heq)).2
  rw [hstate] at hfits
  exact ⟨hfits, h.2.snoc (a := .create name size align ctor) ⟨⟨trivial, r, hexec⟩, nofun, hfits⟩⟩

theorem Reached.alloc {s s' : Client PagedEnv} (h : Reached s) {cache r : Nat}
    (hexec : (SlabOp.alloc cache).exec pagedOps s = some (r, s')) (hknown : s.slabs.caches cache ≠ none) :
    Reached s' := by
  obtain ⟨⟨obj, t⟩, halloc, heq⟩ := Option.bind_eq_some_iff.mp hexec
  have hfits : Fitting s' := by
    cases heq
    exact h.1.keep (kmemCacheAlloc_caches halloc)
  exact ⟨hfits, h.2.snoc (a := .alloc cache) ⟨⟨hknown, r, hexec⟩, nofun, hfits⟩⟩

theorem alloc_known {ops : MmOps σ} {s s' : Client σ} {cache r k : Nat}
    (hexec : (SlabOp.alloc cache).exec ops s = some (r, s')) (hk : s.slabs.caches k ≠ none) :
    s'.slabs.caches k ≠ none := by
  obtain ⟨⟨obj, t⟩, halloc, heq⟩ := Option.bind_eq_some_iff.mp hexec
  cases heq
  exact (kmemCacheAlloc_caches halloc).known hk

theorem Reached.free {s s' : Client PagedEnv} (h : Reached s) {cache obj r : Nat}
    (hexec : (SlabOp.free cache obj).exec pagedOps s = some (r, s')) (hlive : (cache, obj) ∈ s.live) :
    Reached s' := by
  obtain ⟨t, hfree, heq⟩ := Option.bind_eq_some_iff.mp hexec
  have hfits : Fitting s' := by
    cases heq
    exact h.1.keep (kmemCacheFree_caches hfree)
  exact ⟨hfits, h.2.snoc (a := .free cache obj) ⟨⟨hlive, r, hexec⟩, nofun, hfits⟩⟩

theorem ctorOk_none (n : Nat) : CtorOk none n := fun _ h => absurd h (by simp)

theorem reached_init : Reached (Client.init (fun _ => 0#8) pagedStart) :=
  ⟨fun _ _ hc => absurd hc (Option.some_ne_none _).symm, .refl _⟩

end Frostix.Slab
