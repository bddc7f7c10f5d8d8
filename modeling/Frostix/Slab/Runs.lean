import Frostix.Lib.Transition
import Frostix.Slab.Caches

/-!
Runs of the slab allocator with any number of caches, over functions below with any
outcome. `kmem_cache_alloc` leaves a slab that it takes from the free list on that list,
unless the slab gets full at once; in runs without such an allocation the list of every
slab matches its occupancy, so that `kmem_cache_shrink` releases empty slabs only. -/
namespace Frostix.Slab
open Machine32 ByteMemory

variable {σ : Type}

/-- A call of the slab interface, or a client's store into an object of its own. -/
inductive SlabOp where
  | create (name : Option Nat) (size align : Nat) (ctor : Option (Mem → Nat → Mem))
  | alloc (cache : Nat)
  | free (cache obj : Nat)
  | shrink (cache : Nat)
  | write (cache obj i : Nat) (v : BitVec 8)

/-- Result and successor of one call, with the bookkeeping of objects and slabs. -/
def SlabOp.exec (ops : MmOps σ) (s : Client σ) : SlabOp → Option (Nat × Client σ)
  | .create name size align ctor => do
      let (cache, t) ← kmemCacheCreate ops s.slabs name size align ctor
      some (cache, ⟨t, s.live, s.backed⟩)
  | .alloc cache => do
      let (obj, t) ← kmemCacheAlloc ops s.slabs cache
      some (obj, ⟨t, track s.live cache obj, grown s cache obj⟩)
  | .free cache obj => do
      let t ← kmemCacheFree s.slabs cache obj
      some (0, ⟨t, s.live.erase (cache, obj), s.backed⟩)
  | .shrink cache => do
      let t ← kmemCacheShrink ops s.slabs cache
      some (0, ⟨t, s.live, shrunk s cache⟩)
  | .write _ obj i v => some (0, ⟨{ s.slabs with mem := store8 s.slabs.mem (obj + i) v }, s.live, s.backed⟩)

/-- Caches exist, and objects handed back or written are live objects of their cache. -/
def SlabOp.Allowed (s : Client σ) : SlabOp → Prop
  | .create _ _ _ _ => True
  | .alloc cache => s.slabs.caches cache ≠ none
  | .free cache obj => (cache, obj) ∈ s.live
  | .shrink cache => s.slabs.caches cache ≠ none
  | .write cache obj i _ => (cache, obj) ∈ s.live ∧ ∃ c, s.slabs.caches cache = some c ∧ i < c.objectSize

/-- The call does not run into one of the errors of the allocator. -/
def SlabOp.Safe (s : Client σ) : SlabOp → Prop
  | .create _ size align ctor => CreateSafe size align ctor
  | .alloc cache => AllocSafe s.slabs cache
  | .free _ _ => True
  | .shrink _ => True
  | .write _ _ _ _ => True

def SlabStep (ops : MmOps σ) (s : Client σ) (op : SlabOp) (s' : Client σ) : Prop :=
  op.Allowed s ∧ ∃ r, op.exec ops s = some (r, s')

def SafeStep (ops : MmOps σ) (s : Client σ) (op : SlabOp) (s' : Client σ) : Prop :=
  op.Safe s ∧ SlabStep ops s op s'

/-- The state after `slab_init`. -/
def Client.init (mem : Mem) (env : σ) : Client σ := ⟨slabInit mem env, [], []⟩

/-- Every slab of the cache is on exactly one of its lists, the list matches its occupancy,
and what `kmem_cache_shrink` would release holds no live object. -/
structure Placed (s : Client σ) (cache : Nat) (c : KmemCache) : Prop where
  once : ∀ slab, (cache, slab) ∈ s.backed →
    (c.slabsFull ++ (c.slabsPartial ++ c.slabsFree)).count slab = 1
  only : ∀ slab ∈ c.slabsFull ++ (c.slabsPartial ++ c.slabsFree), (cache, slab) ∈ s.backed
  onFull : ∀ slab, (cache, slab) ∈ s.backed →
    (slab ∈ c.slabsFull ↔ slabInuse s.slabs.mem slab = c.objectsPerSlab)
  onFree : ∀ slab, (cache, slab) ∈ s.backed → (slab ∈ c.slabsFree ↔ slabInuse s.slabs.mem slab = 0)
  onPartial : ∀ slab, (cache, slab) ∈ s.backed → (slab ∈ c.slabsPartial ↔
    slabInuse s.slabs.mem slab ≠ 0 ∧ slabInuse s.slabs.mem slab ≠ c.objectsPerSlab)
  unused : ∀ slab ∈ c.slabsFree, ∀ x ∈ s.live, objToSlab x.2 ≠ slab

section Steps

variable {ops : MmOps σ} {J : Set Nat → Set Nat → σ → Prop} {s : Client σ}

theorem Inv.init {mem : Mem} {env : σ} (h : J ∅ ∅ env) : Inv J ∅ (Client.init mem env) := by
  refine ⟨nofun, nofun, List.nodup_nil, nofun, (by decide : slabVirtStart % 4096 = 0), le_rfl, nofun, ?_⟩
  have hcaches : {a : Nat | (Client.init mem env).slabs.caches a ≠ none} = ∅ := by
    ext a
    simp [Client.init, slabInit]
  have hpages : {p : Nat | p ∈ (Client.init mem env).backed.map Prod.snd} = ∅ := by
    ext p
    simp [Client.init]
  rw [hcaches, hpages]
  exact h

/-- A safe call other than `kmem_cache_create` comes back, and the invariant is kept. -/
theorem Inv.call (h : Inv J ∅ s) (hops : Backs ops J) {op : SlabOp} (hop : op.Allowed s)
    (hsafe : op.Safe s) (hcall : ∀ name size align ctor, op ≠ .create name size align ctor) :
    ∃ r s', op.exec ops s = some (r, s') ∧ Inv J ∅ s' := by
  cases op with
  | create name size align ctor => exact absurd rfl (hcall name size align ctor)
  | alloc cache =>
      obtain ⟨c, hc⟩ := Option.ne_none_iff_exists'.mp hop
      obtain ⟨obj, t, hrun, hinv⟩ := kmemCacheAlloc_spec h hops hc hsafe
      exact ⟨obj, _, by rw [SlabOp.exec, hrun]; rfl, hinv⟩
  | free cache obj =>
      obtain ⟨t, hrun, hinv⟩ := kmemCacheFree_spec h hop
      exact ⟨0, _, by rw [SlabOp.exec, hrun]; rfl, hinv⟩
  | shrink cache =>
      obtain ⟨c, hc⟩ := Option.ne_none_iff_exists'.mp hop
      obtain ⟨t, hrun, hinv⟩ := kmemCacheShrink_spec h hops hc
      exact ⟨0, _, by rw [SlabOp.exec, hrun]; rfl, hinv⟩
  | write cache obj i v =>
      obtain ⟨hobj, c, hc, hi⟩ := hop
      exact ⟨0, _, rfl, h.write hc hobj hi v⟩

theorem Inv.step (h : Inv J ∅ s) (hops : Backs ops J) {op : SlabOp} {s' : Client σ}
    (hstep : SafeStep ops s op s') : Inv J ∅ s' := by
  obtain ⟨hsafe, hop, r, hrun⟩ := hstep
  by_cases hcall : ∀ name size align ctor, op ≠ .create name size align ctor
  · obtain ⟨r', t, hrun', hinv⟩ := h.call hops hop hsafe hcall
    cases hrun.symm.trans hrun'
    exact hinv
  · push Not at hcall
    obtain ⟨name, size, align, ctor, rfl⟩ := hcall
    obtain ⟨⟨cache, t⟩, hcreate, heq⟩ := Option.bind_eq_some_iff.mp hrun
    cases heq
    exact kmemCacheCreate_spec h hops hsafe hcreate

theorem Inv.placed_lists (h : Inv J ∅ s) {cache : Nat} {c : KmemCache}
    (hc : s.slabs.caches cache = some c) : Placed s cache c := by
  have hcache := h.caches cache c hc
  have hnodup := h.nodup hc
  have hin : ∀ slab, (cache, slab) ∈ s.backed → slab ∈ c.slabs := fun slab hslab =>
    hcache.listed.mem_iff.mpr (mem_slabsOf.mpr hslab)
  have hpos := hcache.fits.pos
  have hcases : ∀ slab, (cache, slab) ∈ s.backed →
      slab ∈ c.slabsFull ∧ slabInuse s.slabs.mem slab = c.objectsPerSlab ∨
      slab ∈ c.slabsPartial ∧ 0 < slabInuse s.slabs.mem slab ∧
        slabInuse s.slabs.mem slab < c.objectsPerSlab ∨
      slab ∈ c.slabsFree ∧ slabInuse s.slabs.mem slab = 0 := by
    intro slab hslab
    rcases List.mem_append.mp (hin slab hslab) with hx | hx
    · exact Or.inl ⟨hx, hcache.sorted.onFull slab hx (Set.notMem_empty _)⟩
    · rcases List.mem_append.mp hx with hx | hx
      · exact Or.inr (Or.inl ⟨hx, hcache.sorted.onPartial slab hx (Set.notMem_empty _)⟩)
      · exact Or.inr (Or.inr ⟨hx, hcache.sorted.onFree slab hx (Set.notMem_empty _)⟩)
  refine ⟨fun slab hslab => List.count_eq_one_of_mem hnodup (hin slab hslab), fun slab hslab =>
    h.backed hc hslab, ?_, ?_, ?_, fun slab hslab x hx => h.free_empty hc hslab hx⟩
  · refine fun slab hslab => ⟨fun hx => hcache.sorted.onFull slab hx (Set.notMem_empty _), fun hx => ?_⟩
    rcases hcases slab hslab with ⟨hmem, -⟩ | ⟨-, hlt⟩ | ⟨-, hzero⟩
    · exact hmem
    · omega
    · omega
  · refine fun slab hslab => ⟨fun hx => hcache.sorted.onFree slab hx (Set.notMem_empty _), fun hx => ?_⟩
    rcases hcases slab hslab with ⟨-, hfull⟩ | ⟨-, hlt⟩ | ⟨hmem, -⟩
    · omega
    · omega
    · exact hmem
  · refine fun slab hslab => ⟨fun hx => ?_, fun hx => ?_⟩
    · have hlt := hcache.sorted.onPartial slab hx (Set.notMem_empty _)
      omega
    · rcases hcases slab hslab with ⟨-, hfull⟩ | ⟨hmem, -⟩ | ⟨-, hzero⟩
      · exact absurd hfull hx.2
      · exact hmem
      · exact absurd hzero hx.1

end Steps

theorem backs_of_anyOutcome {ops : MmOps σ} {I : Set Nat → σ → Prop} (h : AnyOutcome ops I) :
    Backs ops fun A _ s => I A s := by
  refine ⟨fun _ => h.toAllocator, ?_, ?_⟩
  · intro A P s virt _ _ hs
    have hs₁ := h.pmmAllocPage A s hs
    unfold backSlab
    dsimp only
    by_cases hphys : (ops.pmmAllocPage s).1 = 0
    · rw [if_pos hphys]
      exact ⟨.noFrame, _, rfl, nofun, fun _ => hs₁⟩
    rw [if_neg hphys]
    obtain ⟨st, s₂, hmap, hs₂⟩ := h.vmmMapPage A _ virt (ops.pmmAllocPage s).1
      (pageFlagPresent + pageFlagRw + pageFlagGlobal) hs₁
    rw [hmap]
    simp only [Option.bind_eq_bind, Option.bind_some]
    by_cases hst : st ≠ .ok
    · rw [if_pos hst]
      exact ⟨.refused, _, rfl, nofun, fun _ => h.pmmFreePage A s₂ _ hs₂⟩
    · rw [if_neg hst]
      exact ⟨.mapped, s₂, rfl, fun _ => hs₂, fun hne => absurd rfl hne⟩
  · intro A P s slab _ hs
    obtain ⟨phys, hphys⟩ := h.vmmGetPhysicalAddr A s slab hs
    obtain ⟨st, s₁, hunmap, hs₁⟩ := h.vmmUnmapPage slab trivial A s hs
    refine ⟨_, ?_, h.pmmFreePage A s₁ (alignDown phys 4096) hs₁⟩
    rw [releaseSlab, hphys]
    simp only [Option.bind_eq_bind, Option.bind_some]
    rw [hunmap]
    rfl

/-- In every state of a safe run all slabs are on the list that matches their occupancy,
and every safe call on a cache comes back. -/
theorem slab_run_placed {ops : MmOps σ} {I : Set Nat → σ → Prop} (hops : AnyOutcome ops I) {mem : Mem}
    {env : σ} (henv : I ∅ env) {s : Client σ} (run : Transition.Run (SafeStep ops) (Client.init mem env) s) :
    (∀ cache c, s.slabs.caches cache = some c → Placed s cache c) ∧
      ∀ op : SlabOp, op.Allowed s → op.Safe s →
        (∀ name size align ctor, op ≠ .create name size align ctor) →
        ∃ r s', op.exec ops s = some (r, s') := by
  have hbacks := backs_of_anyOutcome hops
  have hinv : Inv (fun A _ s => I A s) ∅ s :=
    run.invariant (fun _ _ _ hstep h => h.step hbacks hstep) (Inv.init henv)
  refine ⟨fun cache c hc => hinv.placed_lists hc, ?_⟩
  intro op hop hsafe hcall
  obtain ⟨r, s', hrun, -⟩ := hinv.call hbacks hop hsafe hcall
  exact ⟨r, s', hrun⟩

/-- The state after `slab_init` and some calls, from cleared memory. -/
def bumpRun : List SlabOp → Option (Client Nat) :=
  Transition.execAll (fun op s => op.exec bumpOps s) (some (Client.init (fun _ => 0#8) 0xD0000014))

theorem bumpRun_cons {op : SlabOp} {earlier : List SlabOp} {s : Client Nat}
    (h : bumpRun (op :: earlier) = some s) :
    ∃ t r, bumpRun earlier = some t ∧ op.exec bumpOps t = some (r, s) := Transition.execAll_cons h

/-- What the runs below look at: the live objects, the slabs, the lists of the cache and the
occupancy of the first slab. -/
structure Summary where
  live : List (Nat × Nat)
  backed : List (Nat × Nat)
  lists : Option (List (List Nat))
  inuse : Nat
  deriving DecidableEq

def Client.summary (s : Client Nat) : Summary :=
  ⟨s.live, s.backed, (s.slabs.caches 0xD0000014).map fun c => [c.slabsFull, c.slabsPartial, c.slabsFree],
    slabInuse s.slabs.mem 0xE0000000⟩

theorem bumpRun_summary {calls : List SlabOp} {x : Summary} {s : Client Nat}
    (hx : (bumpRun calls).map Client.summary = some x) (hs : bumpRun calls = some s) : s.summary = x := by
  rw [hs] at hx
  exact Option.some.inj hx

theorem cache_of_summary {s : Client Nat} {x : Summary} (h : s.summary = x) {lists : List (List Nat)}
    (hlists : x.lists = some lists) :
    ∃ c, s.slabs.caches 0xD0000014 = some c ∧ [c.slabsFull, c.slabsPartial, c.slabsFree] = lists := by
  rw [← h] at hlists
  exact Option.map_eq_some_iff.mp hlists

/-- Allocate, free, allocate: the slab of the live object is on the free list, and
`kmem_cache_shrink` releases it. -/
theorem shrink_releases_used_slab :
    ∃ s s' c, Transition.Run (SlabStep bumpOps) (Client.init (fun _ => 0#8) 0xD0000014) s ∧
      s.slabs.caches 0xD0000014 = some c ∧ ¬ Placed s 0xD0000014 c ∧
      SlabStep bumpOps s (.shrink 0xD0000014) s' ∧ (0xD0000014, 0xE0000000) ∈ s.backed ∧
      (0xD0000014, 0xE0000000) ∉ s'.backed ∧ (0xD0000014, 0xE00007E8) ∈ s'.live ∧
      objToSlab 0xE00007E8 = 0xE0000000 := by
  have h₅ : (bumpRun [.shrink 0xD0000014, .alloc 0xD0000014, .free 0xD0000014 0xE00007E8, .alloc 0xD0000014,
      .create (some 3) 2000 8 none]).map Client.summary =
      some ⟨[(0xD0000014, 0xE00007E8)], [], some [[], [], []], 1⟩ := by decide +kernel
  have h₄ : (bumpRun [.alloc 0xD0000014, .free 0xD0000014 0xE00007E8, .alloc 0xD0000014,
      .create (some 3) 2000 8 none]).map Client.summary =
      some ⟨[(0xD0000014, 0xE00007E8)], [(0xD0000014, 0xE0000000)], some [[], [], [0xE0000000]], 1⟩ := by
    decide +kernel
  have h₃ : (bumpRun [.free 0xD0000014 0xE00007E8, .alloc 0xD0000014,
      .create (some 3) 2000 8 none]).map Client.summary =
      some ⟨[], [(0xD0000014, 0xE0000000)], some [[], [], [0xE0000000]], 0⟩ := by decide +kernel
  have h₂ : (bumpRun [.alloc 0xD0000014, .create (some 3) 2000 8 none]).map Client.summary =
      some ⟨[(0xD0000014, 0xE00007E8)], [(0xD0000014, 0xE0000000)], some [[], [0xE0000000], []], 1⟩ := by
    decide +kernel
  have h₁ : (bumpRun [.create (some 3) 2000 8 none]).map Client.summary =
      some ⟨[], [], some [[], [], []], 0⟩ := by decide +kernel
  obtain ⟨s₅, hs₅, hsum₅⟩ := Option.map_eq_some_iff.mp h₅
  obtain ⟨s₄, r₅, hs₄, hstep₅⟩ := bumpRun_cons hs₅
  obtain ⟨s₃, r₄, hs₃, hstep₄⟩ := bumpRun_cons hs₄
  obtain ⟨s₂, r₃, hs₂, hstep₃⟩ := bumpRun_cons hs₃
  obtain ⟨s₁, r₂, hs₁, hstep₂⟩ := bumpRun_cons hs₂
  obtain ⟨s₀, r₁, hs₀, hstep₁⟩ := bumpRun_cons hs₁
  have hinit : Client.init (fun _ => 0#8) 0xD0000014 = s₀ := Option.some.inj hs₀
  have hsum₄ := bumpRun_summary h₄ hs₄
  have hsum₂ := bumpRun_summary h₂ hs₂
  obtain ⟨c₁, hc₁, -⟩ := cache_of_summary (bumpRun_summary h₁ hs₁) rfl
  obtain ⟨c₃, hc₃, -⟩ := cache_of_summary (bumpRun_summary h₃ hs₃) rfl
  obtain ⟨c₄, hc₄, hlists⟩ := cache_of_summary hsum₄ rfl
  have hrun : Transition.Run (SlabStep bumpOps) (Client.init (fun _ => 0#8) 0xD0000014) s₄ := by
    rw [hinit]
    have hop₂ : (SlabOp.alloc 0xD0000014).Allowed s₁ := Option.ne_none_iff_exists'.mpr ⟨c₁, hc₁⟩
    have hop₃ : (SlabOp.free 0xD0000014 0xE00007E8).Allowed s₂ := by
      change (0xD0000014, 0xE00007E8) ∈ s₂.summary.live
      rw [hsum₂]
      exact List.mem_cons_self
    have hop₄ : (SlabOp.alloc 0xD0000014).Allowed s₃ := Option.ne_none_iff_exists'.mpr ⟨c₃, hc₃⟩
    exact ((((Transition.Run.refl _).snoc (a := .create (some 3) 2000 8 none) ⟨trivial, r₁, hstep₁⟩).snoc
      ⟨hop₂, r₂, hstep₂⟩).snoc ⟨hop₃, r₃, hstep₃⟩).snoc ⟨hop₄, r₄, hstep₄⟩
  have hback : (0xD0000014, 0xE0000000) ∈ s₄.backed := by
    change (0xD0000014, 0xE0000000) ∈ s₄.summary.backed
    rw [hsum₄]
    exact List.mem_cons_self
  refine ⟨s₄, s₅, c₄, hrun, hc₄, ?_, ⟨Option.ne_none_iff_exists'.mpr ⟨c₄, hc₄⟩, r₅, hstep₅⟩, hback, ?_, ?_,
    by decide⟩
  · intro hplaced
    have hinuse : slabInuse s₄.slabs.mem 0xE0000000 = 1 := congrArg Summary.inuse hsum₄
    have hfree : c₄.slabsFree = [0xE0000000] := by
      injection hlists with _ hrest
      injection hrest with _ hrest
      injection hrest
    have hzero := (hplaced.onFree _ hback).mp (by rw [hfree]; exact List.mem_cons_self)
    omega
  · change (0xD0000014, 0xE0000000) ∉ s₅.summary.backed
    rw [hsum₅]
    exact List.not_mem_nil
  · change (0xD0000014, 0xE00007E8) ∈ s₅.summary.live
    rw [hsum₅]
    exact List.mem_cons_self

/-- Two objects fill a slab, and one of them is freed. -/
theorem slab_run_placed_small :
    ∃ s c, Transition.Run (SafeStep bumpOps) (Client.init (fun _ => 0#8) 0xD0000014) s ∧
      s.slabs.caches 0xD0000014 = some c ∧ c.slabsPartial = [0xE0000000] ∧ Placed s 0xD0000014 c := by
  have h₄ : (bumpRun [.free 0xD0000014 0xE00007E8, .alloc 0xD0000014, .alloc 0xD0000014,
      .create (some 3) 2000 8 none]).map Client.summary =
      some ⟨[(0xD0000014, 0xE0000018)], [(0xD0000014, 0xE0000000)], some [[], [0xE0000000], []], 1⟩ := by
    decide +kernel
  have h₃ : (bumpRun [.alloc 0xD0000014, .alloc 0xD0000014, .create (some 3) 2000 8 none]).map Client.summary =
      some ⟨[(0xD0000014, 0xE0000018), (0xD0000014, 0xE00007E8)], [(0xD0000014, 0xE0000000)],
        some [[0xE0000000], [], []], 2⟩ := by decide +kernel
  have h₂ : (bumpRun [.alloc 0xD0000014, .create (some 3) 2000 8 none]).map Client.summary =
      some ⟨[(0xD0000014, 0xE00007E8)], [(0xD0000014, 0xE0000000)], some [[], [0xE0000000], []], 1⟩ := by
    decide +kernel
  have h₁ : (bumpRun [.create (some 3) 2000 8 none]).map (fun s => (s.summary, s.slabs.nextSlabVirt)) =
      some (⟨[], [], some [[], [], []], 0⟩, 0xE0000000) := by decide +kernel
  obtain ⟨s₄, hs₄, hsum₄⟩ := Option.map_eq_some_iff.mp h₄
  obtain ⟨s₃, r₄, hs₃, hstep₄⟩ := bumpRun_cons hs₄
  obtain ⟨s₂, r₃, hs₂, hstep₃⟩ := bumpRun_cons hs₃
  obtain ⟨s₁, r₂, hs₁, hstep₂⟩ := bumpRun_cons hs₂
  obtain ⟨s₀, r₁, hs₀, hstep₁⟩ := bumpRun_cons hs₁
  have hinit : Client.init (fun _ => 0#8) 0xD0000014 = s₀ := Option.some.inj hs₀
  rw [hs₁] at h₁
  obtain ⟨hsum₁, hnext⟩ := Prod.mk.inj (Option.some.inj h₁)
  obtain ⟨c₁, hc₁, hlists₁⟩ := cache_of_summary hsum₁ rfl
  obtain ⟨c₂, hc₂, hlists₂⟩ := cache_of_summary (bumpRun_summary h₂ hs₂) rfl
  obtain ⟨c₄, hc₄, hlists₄⟩ := cache_of_summary hsum₄ rfl
  have hrun : Transition.Run (SafeStep bumpOps) (Client.init (fun _ => 0#8) 0xD0000014) s₄ := by
    rw [hinit]
    have hsafe₁ : (SlabOp.create (some 3) 2000 8 none).Safe s₀ := ⟨by decide, nofun⟩
    have hsafe₂ : (SlabOp.alloc 0xD0000014).Safe s₁ := by
      intro c hc _
      cases hc₁.symm.trans hc
      injection hlists₁ with _ hrest
      injection hrest with _ hrest
      injection hrest with hfree _
      refine ⟨fun hne => absurd hfree hne, fun _ => ?_⟩
      rw [show s₁.slabs.nextSlabVirt = 0xE0000000 from hnext]
      decide
    have hsafe₃ : (SlabOp.alloc 0xD0000014).Safe s₂ := by
      intro c hc hpart
      cases hc₂.symm.trans hc
      injection hlists₂ with _ hrest
      injection hrest with hpart' _
      exact absurd (hpart.symm.trans hpart') (by decide)
    have hop₂ : (SlabOp.alloc 0xD0000014).Allowed s₁ := Option.ne_none_iff_exists'.mpr ⟨c₁, hc₁⟩
    have hop₃ : (SlabOp.alloc 0xD0000014).Allowed s₂ := Option.ne_none_iff_exists'.mpr ⟨c₂, hc₂⟩
    have hop₄ : (SlabOp.free 0xD0000014 0xE00007E8).Allowed s₃ := by
      change (0xD0000014, 0xE00007E8) ∈ s₃.summary.live
      rw [bumpRun_summary h₃ hs₃]
      exact List.mem_cons_of_mem _ List.mem_cons_self
    exact ((((Transition.Run.refl _).snoc ⟨hsafe₁, trivial, r₁, hstep₁⟩).snoc
      ⟨hsafe₂, hop₂, r₂, hstep₂⟩).snoc ⟨hsafe₃, hop₃, r₃, hstep₃⟩).snoc
      (a := .free 0xD0000014 0xE00007E8) ⟨trivial, hop₄, r₄, hstep₄⟩
  have hpart : c₄.slabsPartial = [0xE0000000] := by
    injection hlists₄ with _ hrest
    injection hrest
  have henv : 0 < 0xD0000014 ∧ ∀ a ∈ (∅ : Set Nat), a < 0xD0000014 := ⟨by decide, nofun⟩
  exact ⟨s₄, c₄, hrun, hc₄, hpart, (slab_run_placed bumpOps_anyOutcome henv hrun).1 _ _ hc₄⟩

end Frostix.Slab
