import Frostix.Slab.FreeLists

/-!
Calls of `kmem_cache_free` that are refused. A pointer of another cache is turned away
before anything is written. A double free into an empty slab is reported only after the
object was pushed on the free list, which already has it: the list turns into a cycle. -/
namespace Frostix.Slab
open Machine32 ByteMemory

variable {σ : Type}

/-- `kmem_cache_free` logs a warning for an object of some slab: the slab is of another
cache, or it has no object in use. -/
structure Refused (s : Client σ) (cache obj : Nat) : Prop where
  pos : cache ≠ 0
  object : ∃ owner c, s.slabs.caches owner = some c ∧ (owner, objToSlab obj) ∈ s.backed ∧
    obj ∈ c.slots (objToSlab obj)
  warned : slabCache s.slabs.mem (objToSlab obj) ≠ cache ∨ slabInuse s.slabs.mem (objToSlab obj) = 0

/-- The objects that a list of allocations returns, the first one first. -/
def allocAll (ops : MmOps σ) : List Nat → Slabs σ → Option (List Nat × Slabs σ)
  | [], s => some ([], s)
  | cache :: rest, s => do
      let (obj, s) ← kmemCacheAlloc ops s cache
      let (objs, s) ← allocAll ops rest s
      some (obj :: objs, s)

/-- Free list, counter and list membership of the slab are the same in both states. -/
structure SlabKept (s t : Slabs σ) (slab : Nat) : Prop where
  freeList : ∀ free, Threaded s.mem (slabFreelist s.mem slab) free ↔
    Threaded t.mem (slabFreelist t.mem slab) free
  inuse : slabInuse t.mem slab = slabInuse s.mem slab
  lists : t.caches = s.caches

/-- A call of `kmem_cache_free` that leaves the slab as it is, so that the objects
allocated from then on are distinct. -/
def Unharmed (ops : MmOps σ) (s : Client σ) (cache obj : Nat) : Prop :=
  ∃ t, kmemCacheFree s.slabs cache obj = some t ∧ SlabKept s.slabs t (objToSlab obj) ∧
    ∀ caches : List Nat, (∀ k ∈ caches, t.caches k ≠ none) →
      ∃ objs u, allocAll ops caches t = some (objs, u) ∧ (objs.filter (· ≠ 0)).Nodup

inductive Call where
  | op (op : SlabOp)
  | refused (cache obj : Nat)

def CallStep (ops : MmOps σ) (s : Client σ) : Call → Client σ → Prop
  | .op op, s' => FitStep ops s op s'
  | .refused cache obj, s' => Refused s cache obj ∧ slabCache s.slabs.mem (objToSlab obj) ≠ cache ∧
      ∃ t, kmemCacheFree s.slabs cache obj = some t ∧ s' = ⟨t, s.live, s.backed⟩

section Refused

variable {ops : MmOps σ} {J : Set Nat → Set Nat → σ → Prop} {s s' : Client σ} {cache obj : Nat}

theorem kmemCacheFree_foreign {s : Slabs σ} (hne : slabCache s.mem (objToSlab obj) ≠ cache) :
    kmemCacheFree s cache obj = some s := by
  unfold kmemCacheFree
  by_cases hobj : cache = 0 ∨ obj = 0
  · rw [if_pos hobj]
  · rw [if_neg hobj]
    exact if_pos hne

theorem Sound.call (h : Sound J s) (hops : Supplies ops J) {call : Call} (hstep : CallStep ops s call s') :
    Sound J s' := by
  cases call with
  | op op => exact h.step hops hstep
  | refused cache obj =>
      obtain ⟨-, hne, t, hrun, rfl⟩ := hstep
      cases (kmemCacheFree_foreign hne).symm.trans hrun
      exact h

/-- Allocations come back, with objects that are distinct and not live. -/
theorem Sound.allocAll (hops : Supplies ops J) (caches : List Nat) :
    ∀ {s : Client σ}, Sound J s → (∀ k ∈ caches, s.slabs.caches k ≠ none) →
      ∃ objs u, Slab.allocAll ops caches s.slabs = some (objs, u) ∧ (objs.filter (· ≠ 0)).Nodup ∧
        ∀ o ∈ objs, o ≠ 0 → ∀ x ∈ s.live, x.2 ≠ o := by
  induction caches with
  | nil => exact fun _ _ => ⟨[], _, rfl, List.nodup_nil, nofun⟩
  | cons cache rest ih =>
      intro s h hknown
      obtain ⟨c, hc⟩ := Option.ne_none_iff_exists'.mp (hknown cache List.mem_cons_self)
      obtain ⟨obj, t, hrun, hsound, hdelivered⟩ := h.alloc hops hc
      obtain ⟨objs, u, hrest, hnodup, hnew⟩ := ih hsound fun k hk =>
        (kmemCacheAlloc_caches hrun).known (hknown k (List.mem_cons_of_mem _ hk))
      have hsub : ∀ x ∈ s.live, x ∈ track s.live cache obj := by
        intro x hx
        unfold track
        split_ifs
        · exact hx
        · exact List.mem_cons_of_mem _ hx
      refine ⟨obj :: objs, u, ?_, ?_, ?_⟩
      · rw [Slab.allocAll, hrun]
        simp only [Option.bind_eq_bind, Option.bind_some]
        rw [hrest]
        rfl
      · by_cases hzero : obj = 0
        · rw [List.filter_cons_of_neg (by simp [hzero])]
          exact hnodup
        · rw [List.filter_cons_of_pos (by simpa using hzero)]
          refine List.nodup_cons.mpr ⟨fun hmem => ?_, hnodup⟩
          -- the first object is live when the others are allocated
          refine hnew obj (List.mem_of_mem_filter hmem) hzero (cache, obj) ?_ rfl
          rw [track, if_neg hzero]
          exact List.mem_cons_self
      · intro o ho hpos x hx
        rcases List.mem_cons.mp ho with rfl | ho
        · rintro rfl
          obtain ⟨d, hd⟩ := Option.ne_none_iff_exists'.mp (h.known _ (h.live x hx))
          have hapart := (hdelivered hpos).apart x hx d hd
          have hsize := (h.caches _ _ hc).fits.word
          have hsize' := (h.caches _ _ hd).fits.word
          omega
        · exact hnew o ho hpos x (hsub x hx)

theorem pushObject_links {m : Mem} {slab : Nat} (hlo : slab + 20 ≤ obj) (hhi : obj < 2 ^ 32) :
    slabFreelist (pushObject m slab obj) slab = obj ∧
      getNextFree (pushObject m slab obj) obj = slabFreelist m slab ∧
      slabInuse (pushObject m slab obj) slab = slabInuse m slab := by
  refine ⟨load32_store32 _ _ hhi, ?_, ?_⟩
  · refine (load32_store32_of_apart _ _ (by omega)).trans ?_
    exact load32_store32 _ _ (load32_lt _ _)
  · refine (load32_store32_of_apart _ _ (by omega)).trans ?_
    exact load32_store32_of_apart _ _ (by omega)

theorem not_threaded_pushObject {m : Mem} {slab : Nat} {free : List Nat} (hlo : slab + 20 ≤ obj)
    (hhi : obj < 2 ^ 32) (hthread : Threaded m (slabFreelist m slab) free) (hnodup : free.Nodup)
    (hmem : obj ∈ free) :
    ¬ Threaded (pushObject m slab obj) (slabFreelist (pushObject m slab obj) slab) free := by
  obtain ⟨hhead, hnext, -⟩ := @pushObject_links obj m slab hlo hhi
  rw [hhead]
  intro hpushed
  cases free with
  | nil => exact absurd hmem List.not_mem_nil
  | cons head rest =>
      obtain ⟨rfl, hpos, hrest⟩ := hpushed
      -- the object was the head already, so now it is its own successor
      rw [hnext, hthread.1] at hrest
      cases rest with
      | nil => exact hpos hrest
      | cons o rest =>
          refine (List.nodup_cons.mp hnodup).1 ?_
          rw [hrest.1]
          exact List.mem_cons_self

theorem Sound.double_free (h : Sound J s) (hrefused : Refused s cache obj)
    (heq : slabCache s.slabs.mem (objToSlab obj) = cache) : ¬ Unharmed ops s cache obj := by
  rintro ⟨t, hrun, hkept, -⟩
  obtain ⟨owner, c, hc, hback, hslot⟩ := hrefused.object
  have hinuse := hrefused.warned.resolve_left (not_not.mpr heq)
  have hcache := h.caches owner c hc
  have hok := hcache.slabs _ (hcache.listed.mem_iff.mpr (mem_slabsOf.mpr hback))
  obtain ⟨free, hthread, hperm⟩ := hok.objects
  have hlive : objectsIn s.live (objToSlab obj) = [] := by
    rw [← List.length_eq_zero_iff, ← hok.inuse]
    exact hinuse
  rw [hlive, List.append_nil] at hperm
  obtain ⟨hlo, hhi⟩ := hcache.fits.bounds hslot
  have hword := hcache.fits.word
  have hpage : objToSlab obj + 4096 ≤ 2 ^ 32 := (h.pages _ hback).fits
  have hlt : obj < 2 ^ 32 := by omega
  have hpushed : t = { s.slabs with mem := pushObject s.slabs.mem (objToSlab obj) obj } := by
    unfold kmemCacheFree at hrun
    rw [if_neg (not_or.mpr ⟨hrefused.pos, by omega⟩)] at hrun
    simp only [heq, ne_eq, not_true_eq_false, if_false] at hrun
    rw [if_pos ((@pushObject_links obj s.slabs.mem (objToSlab obj) hlo hlt).2.2.trans hinuse)] at hrun
    exact (Option.some.inj hrun).symm
  have hbroken := hkept.freeList free
  rw [hpushed] at hbroken
  exact not_threaded_pushObject hlo hlt hthread (hperm.nodup_iff.mpr hcache.fits.slots_nodup)
    (hperm.mem_iff.mpr hslot) (hbroken.mp hthread)

theorem Sound.call_run (hops : Supplies ops J) {mem : Mem} {env : σ} (henv : J ∅ ∅ env)
    (run : Transition.Run (CallStep ops) (Client.init mem env) s) : Sound J s :=
  run.invariant (fun _ _ _ hstep h => h.call hops hstep) (Sound.init henv)

end Refused

/-- In a run in which caches fit their pages, objects that are handed back are live or of
another cache, a refused call leaves its slab as it is exactly if the slab belongs to
another cache; the report of a double free comes too late. -/
theorem refused_free_iff {ops : MmOps σ} {J : Set Nat → Set Nat → σ → Prop} (hops : Supplies ops J)
    {mem : Mem} {env : σ} (henv : J ∅ ∅ env) {s : Client σ}
    (run : Transition.Run (CallStep ops) (Client.init mem env) s) {cache obj : Nat}
    (hrefused : Refused s cache obj) :
    Unharmed ops s cache obj ↔ slabCache s.slabs.mem (objToSlab obj) ≠ cache := by
  have hsound := Sound.call_run hops henv run
  constructor
  · intro hunharmed heq
    exact hsound.double_free hrefused heq hunharmed
  · intro hne
    refine ⟨s.slabs, kmemCacheFree_foreign hne, ⟨fun _ => Iff.rfl, rfl, rfl⟩, fun caches hknown => ?_⟩
    obtain ⟨objs, u, hrun, hnodup, -⟩ := hsound.allocAll hops caches hknown
    exact ⟨objs, u, hrun, hnodup⟩

theorem Reached.calls {s : Client PagedEnv} (h : Reached s) :
    Transition.Run (CallStep pagedOps) (Client.init (fun _ => 0#8) pagedStart) s :=
  h.2.mono fun _ op _ hstep => ⟨.op op, hstep⟩

/-- An object of a cache with two objects to a slab, handed back to the second cache. -/
theorem refused_free_other_cache :
    ∃ s, Transition.Run (CallStep pagedOps) (Client.init (fun _ => 0#8) pagedStart) s ∧
      Refused s 0xD0000034 0xE00007E8 ∧ s.live = [(0xD0000014, 0xE00007E8)] ∧
      Unharmed pagedOps s 0xD0000034 0xE00007E8 := by
  have h₃ : (pagedRun [.alloc 0xD0000014, .create (some 3) 2000 8 none, .create (some 3) 2000 8 none]).map
      (fun s => (s.live, s.backed, slabCache s.slabs.mem 0xE0000000,
        (s.slabs.caches 0xD0000014).map fun c => c.slots 0xE0000000)) =
      some ([(0xD0000014, 0xE00007E8)], [(0xD0000014, 0xE0000000)], 0xD0000014,
        some [0xE0000018, 0xE00007E8]) := by decide +kernel
  have h₂ : (pagedRun [.create (some 3) 2000 8 none, .create (some 3) 2000 8 none]).map
      (fun s => (s.slabs.caches 0xD0000014).isSome) = some true := by decide +kernel
  obtain ⟨s₃, hs₃, hsum₃⟩ := Option.map_eq_some_iff.mp h₃
  obtain ⟨s₂, r₃, hs₂, hstep₃⟩ := Transition.execAll_cons hs₃
  obtain ⟨s₁, r₂, hs₁, hstep₂⟩ := Transition.execAll_cons hs₂
  obtain ⟨s₀, r₁, hs₀, hstep₁⟩ := Transition.execAll_cons hs₁
  cases hs₀
  have hgeo : Geometry (created 2000 8 none) := ⟨by decide, by decide, by decide⟩
  have hknown : s₂.slabs.caches 0xD0000014 ≠ none := by
    rw [pagedRun, hs₂] at h₂
    exact Option.isSome_iff_ne_none.mp (Option.some.inj h₂)
  have hreached : Reached s₃ :=
    ((reached_init.create hstep₁ hgeo (ctorOk_none _)).create hstep₂ hgeo (ctorOk_none _)).alloc hstep₃ hknown
  obtain ⟨hlive, hback, howner, hslots⟩ : s₃.live = _ ∧ s₃.backed = _ ∧ _ ∧ _ := by
    simpa only [Prod.mk.injEq] using hsum₃
  obtain ⟨c, hc, hslots⟩ := Option.map_eq_some_iff.mp hslots
  have hslab : objToSlab 0xE00007E8 = 0xE0000000 := by decide
  have hrefused : Refused s₃ 0xD0000034 0xE00007E8 := by
    refine ⟨by decide, ⟨0xD0000014, c, hc, ?_, ?_⟩, Or.inl ?_⟩
    · rw [hslab, hback]
      exact List.mem_cons_self
    · rw [hslab, hslots]
      decide
    · rw [hslab, howner]
      decide
  refine ⟨s₃, hreached.calls, hrefused, hlive, ?_⟩
  refine (refused_free_iff pagedOps_supplies pagedStart_ok hreached.calls hrefused).mpr ?_
  rw [hslab, howner]
  decide

/-- The only object in use is freed twice. The second call is reported, and the object is
returned by both of the next two allocations. -/
theorem double_free_returns_twice :
    ∃ s t u, Transition.Run (CallStep pagedOps) (Client.init (fun _ => 0#8) pagedStart) s ∧
      Refused s 0xD0000014 0xE00007E8 ∧ ¬ Unharmed pagedOps s 0xD0000014 0xE00007E8 ∧
      kmemCacheFree s.slabs 0xD0000014 0xE00007E8 = some t ∧
      allocAll pagedOps [0xD0000014, 0xD0000014] t = some ([0xE00007E8, 0xE00007E8], u) := by
  have h₃ : (pagedRun [.free 0xD0000014 0xE00007E8, .alloc 0xD0000014, .create (some 3) 2000 8 none]).map
      (fun s => (s.backed, slabCache s.slabs.mem 0xE0000000, slabInuse s.slabs.mem 0xE0000000,
        (s.slabs.caches 0xD0000014).map fun c => c.slots 0xE0000000)) =
      some ([(0xD0000014, 0xE0000000)], 0xD0000014, 0, some [0xE0000018, 0xE00007E8]) := by decide +kernel
  have hallocs : ((pagedRun [.free 0xD0000014 0xE00007E8, .alloc 0xD0000014,
      .create (some 3) 2000 8 none]).bind fun s =>
        (kmemCacheFree s.slabs 0xD0000014 0xE00007E8).bind fun t =>
          (allocAll pagedOps [0xD0000014, 0xD0000014] t).map Prod.fst) = some [0xE00007E8, 0xE00007E8] := by
    decide +kernel
  have h₂ : (pagedRun [.alloc 0xD0000014, .create (some 3) 2000 8 none]).map (fun s => s.live) =
      some [(0xD0000014, 0xE00007E8)] := by decide +kernel
  have h₁ : (pagedRun [.create (some 3) 2000 8 none]).map (fun s => (s.slabs.caches 0xD0000014).isSome) =
      some true := by decide +kernel
  obtain ⟨s₃, hs₃, hsum₃⟩ := Option.map_eq_some_iff.mp h₃
  obtain ⟨s₂, r₃, hs₂, hstep₃⟩ := Transition.execAll_cons hs₃
  obtain ⟨s₁, r₂, hs₁, hstep₂⟩ := Transition.execAll_cons hs₂
  obtain ⟨s₀, r₁, hs₀, hstep₁⟩ := Transition.execAll_cons hs₁
  cases hs₀
  have hgeo : Geometry (created 2000 8 none) := ⟨by decide, by decide, by decide⟩
  have hknown : s₁.slabs.caches 0xD0000014 ≠ none := by
    rw [pagedRun, hs₁] at h₁
    exact Option.isSome_iff_ne_none.mp (Option.some.inj h₁)
  have hlive : s₂.live = [(0xD0000014, 0xE00007E8)] := by
    rw [pagedRun, hs₂] at h₂
    exact Option.some.inj h₂
  have hreached : Reached s₃ :=
    ((reached_init.create hstep₁ hgeo (ctorOk_none _)).alloc hstep₂ hknown).free hstep₃
    (hlive ▸ List.mem_cons_self)
  obtain ⟨hback, howner, hinuse, hslots⟩ : s₃.backed = _ ∧ _ ∧ _ ∧ _ := by
    simpa only [Prod.mk.injEq] using hsum₃
  obtain ⟨c, hc, hslots⟩ := Option.map_eq_some_iff.mp hslots
  have hslab : objToSlab 0xE00007E8 = 0xE0000000 := by decide
  have hrefused : Refused s₃ 0xD0000014 0xE00007E8 := by
    refine ⟨by decide, ⟨0xD0000014, c, hc, ?_, ?_⟩, Or.inr ?_⟩
    · rw [hslab, hback]
      exact List.mem_cons_self
    · rw [hslab, hslots]
      decide
    · rw [hslab]
      exact hinuse
  rw [hs₃, Option.bind_some] at hallocs
  obtain ⟨t, ht, hallocs⟩ := Option.bind_eq_some_iff.mp hallocs
  obtain ⟨⟨objs, u⟩, hu, hobjs⟩ := Option.map_eq_some_iff.mp hallocs
  obtain rfl : objs = [0xE00007E8, 0xE00007E8] := hobjs
  have hsound := Sound.call_run pagedOps_supplies pagedStart_ok hreached.calls
  exact ⟨s₃, t, u, hreached.calls, hrefused, hsound.double_free hrefused (hslab ▸ howner), ht, hu⟩

end Frostix.Slab
