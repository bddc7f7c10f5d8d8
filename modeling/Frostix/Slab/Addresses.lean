import Frostix.Lib.Transition
import Frostix.Slab.Caches

/-!
The addresses of slabs over whole runs. `next_slab_virt` only grows, whether the page at
the old address was mapped or not and whatever is released later, and nothing compares it
with the end of the slab area: what keeps slabs out of the page-table window is only how
few addresses a run has used up. -/
namespace Frostix.Slab
open Machine32 ByteMemory

variable {σ : Type}

inductive SlabCall where
  | create (name : Option Nat) (size align : Nat) (ctor : Option (Mem → Nat → Mem))
  | alloc (cache : Nat)
  | free (cache obj : Nat)
  | shrink (cache : Nat)
  | destroy (cache : Nat)

def SlabCall.run (ops : MmOps σ) (s : Slabs σ) : SlabCall → Option (Slabs σ)
  | .create name size align ctor => (kmemCacheCreate ops s name size align ctor).map Prod.snd
  | .alloc cache => (kmemCacheAlloc ops s cache).map Prod.snd
  | .free cache obj => kmemCacheFree s cache obj
  | .shrink cache => kmemCacheShrink ops s cache
  | .destroy cache => kmemCacheDestroy ops s cache

/-- The address of the slab that `new_slab` puts at the end of the partial list. -/
def SlabCall.makes (ops : MmOps σ) (s : Slabs σ) : SlabCall → Option Nat
  | .alloc cache => do
      let c ← s.caches cache
      if cache = 0 ∨ c.source.isEmpty = false then none
      else do
        let (ready, t) ← newSlab ops s cache
        if ready then (t.caches cache).bind fun c => c.slabsPartial.getLast? else none
  | _ => none

/-- The allocator with the slabs made so far, whether or not they were released since, and
the number of addresses that `next_slab_virt` has left behind. -/
structure History (σ : Type) where
  slabs : Slabs σ
  made : List Nat
  used : Nat

/-- The state after `slab_init`. -/
def History.init (mem : Mem) (env : σ) : History σ := ⟨slabInit mem env, [], 0⟩

def SlabCall.exec (ops : MmOps σ) (h : History σ) (call : SlabCall) : Option (History σ) :=
  (call.run ops h.slabs).map fun t =>
    ⟨t, (call.makes ops h.slabs).toList ++ h.made,
      if t.nextSlabVirt = h.slabs.nextSlabVirt then h.used else h.used + 1⟩

/-- The number of pages between the start of the slab area and the page-table window. -/
def slabAddresses : Nat := (slabVirtEnd - slabVirtStart) / 4096

def SlabCall.Early (h : History σ) (call : SlabCall) : Prop :=
  ∀ cache c, call = .alloc cache → h.slabs.caches cache = some c → c.source = [] → h.used < slabAddresses

def EarlyStep (ops : MmOps σ) (h : History σ) (call : SlabCall) (h' : History σ) : Prop :=
  call.Early h ∧ call.exec ops h = some h'

section Calls

variable {ops : MmOps σ} {s t : Slabs σ} {cache : Nat}

theorem newSlab_address {ready : Bool} (h : newSlab ops s cache = some (ready, t)) :
    (ready = false ∧ t.nextSlabVirt = s.nextSlabVirt) ∨
      t.nextSlabVirt = wrap (s.nextSlabVirt + 4096) ∧
        (ready = true → ∃ c : KmemCache, t.caches cache = some c ∧
          c.slabsPartial.getLast? = some s.nextSlabVirt) := by
  unfold newSlab at h
  obtain ⟨⟨backing, env⟩, -, h⟩ := Option.bind_eq_some_iff.mp h
  cases backing with
  | noFrame =>
      cases h
      exact Or.inl ⟨rfl, rfl⟩
  | refused =>
      cases h
      exact Or.inr ⟨rfl, nofun⟩
  | mapped =>
      obtain ⟨c, -, h⟩ := Option.bind_eq_some_iff.mp h
      cases h
      refine Or.inr ⟨rfl, fun _ => ⟨_, Function.update_self .., ?_⟩⟩
      exact List.getLast?_concat ..

theorem allocFrom_address {obj : Nat} (h : allocFrom s cache = some (obj, t)) :
    t.nextSlabVirt = s.nextSlabVirt := by
  obtain ⟨c, slab, mem, -, -, -, rfl | rfl⟩ := allocFrom_cases h
  · rfl
  · rfl

theorem kmemCacheAlloc_address {obj : Nat} (h : kmemCacheAlloc ops s cache = some (obj, t)) :
    t.nextSlabVirt = s.nextSlabVirt ∨
      t.nextSlabVirt = wrap (s.nextSlabVirt + 4096) ∧ ∃ c, s.caches cache = some c ∧ c.source = [] := by
  rcases kmemCacheAlloc_cases h with ⟨-, rfl⟩ | ⟨c, hc, ⟨hempty, hnew⟩ | ⟨-, htaken⟩⟩
  · exact Or.inl rfl
  · obtain ⟨ready, u, hrun, hsame⟩ : ∃ ready u, newSlab ops s cache = some (ready, u) ∧
        t.nextSlabVirt = u.nextSlabVirt := by
      rcases hnew with ⟨hrun, -⟩ | ⟨u, hrun, htaken⟩
      · exact ⟨false, t, hrun, rfl⟩
      · exact ⟨true, u, hrun, allocFrom_address htaken⟩
    rw [hsame]
    rcases newSlab_address hrun with ⟨-, hkept⟩ | ⟨hmoved, -⟩
    · exact Or.inl hkept
    · exact Or.inr ⟨hmoved, c, hc, hempty⟩
  · exact Or.inl (allocFrom_address htaken)

theorem kmemCacheCreate_address {name : Option Nat} {size align r : Nat} {ctor : Option (Mem → Nat → Mem)}
    (h : kmemCacheCreate ops s name size align ctor = some (r, t)) : t.nextSlabVirt = s.nextSlabVirt := by
  unfold kmemCacheCreate at h
  cases name with
  | none =>
      cases h
      rfl
  | some len =>
      dsimp only at h
      by_cases hbad : size = 0 ∨ align < slabMinAlign ∨ align &&& (align - 1) ≠ 0
      · rw [if_pos hbad] at h
        cases h
        rfl
      · rw [if_neg hbad] at h
        obtain ⟨⟨p, env⟩, -, h⟩ := Option.bind_eq_some_iff.mp h
        dsimp only at h
        split_ifs at h <;> cases h <;> rfl

theorem kmemCacheFree_address {obj : Nat} (h : kmemCacheFree s cache obj = some t) :
    t.nextSlabVirt = s.nextSlabVirt := by
  rcases kmemCacheFree_cases h with rfl | ⟨-, rfl | ⟨c, mem, -, rfl | rfl⟩⟩
  · rfl
  · rfl
  · rfl
  · rfl

theorem kmemCacheShrink_address (h : kmemCacheShrink ops s cache = some t) :
    t.nextSlabVirt = s.nextSlabVirt := by
  unfold kmemCacheShrink at h
  split_ifs at h
  · cases h
    rfl
  · obtain ⟨c, -, h⟩ := Option.bind_eq_some_iff.mp h
    obtain ⟨env, -, h⟩ := Option.bind_eq_some_iff.mp h
    cases h
    rfl

theorem kmemCacheDestroy_address (h : kmemCacheDestroy ops s cache = some t) :
    t.nextSlabVirt = s.nextSlabVirt := by
  unfold kmemCacheDestroy at h
  split_ifs at h
  · cases h
    rfl
  obtain ⟨c, -, h⟩ := Option.bind_eq_some_iff.mp h
  dsimp only at h
  split_ifs at h
  · obtain ⟨s₁, hs₁, h⟩ := Option.bind_eq_some_iff.mp h
    obtain ⟨c₁, -, h⟩ := Option.bind_eq_some_iff.mp h
    obtain ⟨env₁, -, h⟩ := Option.bind_eq_some_iff.mp h
    obtain ⟨phys, -, h⟩ := Option.bind_eq_some_iff.mp h
    obtain ⟨⟨st, env₂⟩, -, h⟩ := Option.bind_eq_some_iff.mp h
    cases hs₁
    cases h
    rfl
  · obtain ⟨s₁, hs₁, h⟩ := Option.bind_eq_some_iff.mp h
    obtain ⟨c₁, -, h⟩ := Option.bind_eq_some_iff.mp h
    obtain ⟨env₁, -, h⟩ := Option.bind_eq_some_iff.mp h
    obtain ⟨phys, -, h⟩ := Option.bind_eq_some_iff.mp h
    obtain ⟨⟨st, env₂⟩, -, h⟩ := Option.bind_eq_some_iff.mp h
    have hshrunk := kmemCacheShrink_address hs₁
    cases h
    exact hshrunk

theorem SlabCall.run_address {call : SlabCall} (h : call.run ops s = some t) :
    t.nextSlabVirt = s.nextSlabVirt ∨ t.nextSlabVirt = wrap (s.nextSlabVirt + 4096) ∧
      ∃ cache c, call = .alloc cache ∧ s.caches cache = some c ∧ c.source = [] := by
  cases call with
  | create name size align ctor =>
      obtain ⟨⟨r, t'⟩, hrun, rfl⟩ := Option.map_eq_some_iff.mp h
      exact Or.inl (kmemCacheCreate_address hrun)
  | alloc cache =>
      obtain ⟨⟨obj, t'⟩, hrun, rfl⟩ := Option.map_eq_some_iff.mp h
      exact (kmemCacheAlloc_address hrun).imp_right fun ⟨hmoved, c, hc, hempty⟩ => ⟨hmoved, cache, c, rfl,
        hc, hempty⟩
  | free cache obj => exact Or.inl (kmemCacheFree_address h)
  | shrink cache => exact Or.inl (kmemCacheShrink_address h)
  | destroy cache => exact Or.inl (kmemCacheDestroy_address h)

theorem SlabCall.makes_address {call : SlabCall} {slab : Nat} (hmakes : call.makes ops s = some slab)
    (h : call.run ops s = some t) :
    slab = s.nextSlabVirt ∧ t.nextSlabVirt = wrap (s.nextSlabVirt + 4096) ∧
      ∃ cache c, call = .alloc cache ∧ s.caches cache = some c ∧ c.source = [] := by
  cases call with
  | create name size align ctor => cases hmakes
  | alloc cache =>
      obtain ⟨c, hc, hmakes⟩ := Option.bind_eq_some_iff.mp hmakes
      split_ifs at hmakes with hother
      obtain ⟨hpos, hempty⟩ := not_or.mp hother
      rw [Bool.not_eq_false, List.isEmpty_iff] at hempty
      obtain ⟨⟨ready, t₁⟩, hnew, hmakes⟩ := Option.bind_eq_some_iff.mp hmakes
      dsimp only at hmakes
      split_ifs at hmakes with hready
      subst hready
      rcases newSlab_address hnew with ⟨hfail, -⟩ | ⟨hmoved, hlast⟩
      · cases hfail
      obtain ⟨c₁, hc₁, hslab⟩ := hlast rfl
      rw [hc₁, Option.bind_some, hslab] at hmakes
      refine ⟨(Option.some.inj hmakes).symm, ?_, cache, c, rfl, hc, hempty⟩
      rw [SlabCall.run, kmemCacheAlloc, if_neg hpos, hc] at h
      simp only [Option.bind_eq_bind, Option.bind_some, hempty, List.isEmpty_nil, if_true, hnew] at h
      obtain ⟨⟨obj, t'⟩, hfrom, rfl⟩ := Option.map_eq_some_iff.mp h
      exact (allocFrom_address hfrom).trans hmoved
  | free cache obj => cases hmakes
  | shrink cache => cases hmakes
  | destroy cache => cases hmakes

end Calls

/-- The address stands where the number of used ones says, above all slabs made so far. -/
structure Marked (h : History σ) : Prop where
  next : h.slabs.nextSlabVirt = slabVirtStart + 4096 * h.used
  most : h.used ≤ slabAddresses
  made : ∀ slab ∈ h.made, SlabVirt slab ∧ slab < h.slabs.nextSlabVirt

section Runs

variable {ops : MmOps σ} {h h' : History σ} {call : SlabCall}

theorem Marked.init (mem : Mem) (env : σ) : Marked (History.init mem env) := ⟨rfl, Nat.zero_le _, nofun⟩

theorem Marked.next_virt (hm : Marked h) (hleft : h.used < slabAddresses) :
    SlabVirt h.slabs.nextSlabVirt ∧ wrap (h.slabs.nextSlabVirt + 4096) = h.slabs.nextSlabVirt + 4096 := by
  have hnext := hm.next
  unfold slabAddresses slabVirtEnd slabVirtStart at hleft
  unfold slabVirtStart at hnext
  refine ⟨⟨by omega, by unfold slabVirtStart; omega, by unfold slabVirtEnd; omega⟩, wrap_of_lt (by omega)⟩

theorem Marked.step (hm : Marked h) (hstep : EarlyStep ops h call h') : Marked h' := by
  obtain ⟨hearly, hexec⟩ := hstep
  obtain ⟨t, hrun, rfl⟩ := Option.map_eq_some_iff.mp hexec
  cases hmakes : call.makes ops h.slabs with
  | none =>
      rw [Option.toList_none, List.nil_append]
      rcases SlabCall.run_address hrun with hsame | ⟨hmoved, cache, c, hcall, hc, hempty⟩
      · refine ⟨?_, ?_, ?_⟩
        · simpa only [hsame, if_true] using hm.next
        · simpa only [hsame, if_true] using hm.most
        · simpa only [hsame] using hm.made
      · have hleft := hearly cache c hcall hc hempty
        rw [(hm.next_virt hleft).2] at hmoved
        have hne : t.nextSlabVirt ≠ h.slabs.nextSlabVirt := by omega
        have hnext := hm.next
        refine ⟨?_, ?_, fun slab hslab => ?_⟩
        · simp only [if_neg hne]
          rw [hmoved, hnext, Nat.mul_succ, Nat.add_assoc]
        · simp only [if_neg hne]
          omega
        · obtain ⟨hvirt, hlt⟩ := hm.made slab hslab
          exact ⟨hvirt, by dsimp only; omega⟩
  | some slab =>
      obtain ⟨rfl, hmoved, cache, c, hcall, hc, hempty⟩ := SlabCall.makes_address hmakes hrun
      have hleft := hearly cache c hcall hc hempty
      obtain ⟨hvirt, hwrap⟩ := hm.next_virt hleft
      rw [hwrap] at hmoved
      have hne : t.nextSlabVirt ≠ h.slabs.nextSlabVirt := by omega
      have hnext := hm.next
      refine ⟨?_, ?_, fun slab hslab => ?_⟩
      · simp only [if_neg hne]
        rw [hmoved, hnext, Nat.mul_succ, Nat.add_assoc]
      · simp only [if_neg hne]
        omega
      · rcases List.mem_cons.mp hslab with rfl | hslab
        · exact ⟨hvirt, by dsimp only; omega⟩
        · obtain ⟨hvirt', hlt⟩ := hm.made slab hslab
          exact ⟨hvirt', by dsimp only; omega⟩

end Runs

/-- The slab that a call makes lies in the slab area, and no slab made before has its address. -/
def PlacesSlabs (ops : MmOps σ) (h : History σ) (call : SlabCall) : Prop :=
  ∀ slab, call.makes ops h.slabs = some slab → SlabVirt slab ∧ slab ∉ h.made

/-- In every run that makes its slabs while addresses are left, every slab is placed in the
slab area, apart from all slabs made before. -/
theorem slab_addresses_run {ops : MmOps σ} {mem : Mem} {env : σ} {h : History σ}
    (run : Transition.Run (EarlyStep ops) (History.init mem env) h) :
    (∀ slab ∈ h.made, SlabVirt slab) ∧
      ∀ call h', EarlyStep ops h call h' → PlacesSlabs ops h call := by
  have hm : Marked h := run.invariant (fun _ _ _ hstep hs => hs.step hstep) (Marked.init mem env)
  refine ⟨fun slab hslab => (hm.made slab hslab).1, ?_⟩
  rintro call h' ⟨hearly, hexec⟩ slab hmakes
  obtain ⟨t, hrun, -⟩ := Option.map_eq_some_iff.mp hexec
  obtain ⟨rfl, -, cache, c, hcall, hc, hempty⟩ := SlabCall.makes_address hmakes hrun
  refine ⟨(hm.next_virt (hearly cache c hcall hc hempty)).1, fun hmade => ?_⟩
  exact lt_irrefl _ (hm.made _ hmade).2

theorem slab_addresses_run_first :
    (SlabCall.alloc 0xD0000014).makes bumpOps
        ({ slabInit (fun _ => 0#8) 0xD0000034 with kmemCaches := [0xD0000014] }.setCache 0xD0000014
          ⟨2000, 8, none, 2, [], [], []⟩) = some 0xE0000000 ∧
      SlabVirt 0xE0000000 := by
  let c : KmemCache := ⟨2000, 8, none, 2, [], [], []⟩
  let s : Slabs Nat := { slabInit (fun _ => 0#8) 0xD0000034 with kmemCaches := [0xD0000014] }.setCache 0xD0000014 c
  have hcreate : (SlabCall.create (some 3) 2000 8 none).exec bumpOps (History.init (fun _ => 0#8) 0xD0000014) =
      some ⟨s, [], 0⟩ := rfl
  have hmakes : (SlabCall.alloc 0xD0000014).makes bumpOps s = some 0xE0000000 := by rfl
  have hearly : (SlabCall.alloc 0xD0000014).Early ⟨s, [], 0⟩ := fun _ _ _ _ _ => by decide
  have hexec : ((SlabCall.alloc 0xD0000014).exec bumpOps ⟨s, [], 0⟩).isSome = true := by decide +kernel
  obtain ⟨h', hstep⟩ := Option.isSome_iff_exists.mp hexec
  have hrun : Transition.Run (EarlyStep bumpOps) (History.init (fun _ => 0#8) 0xD0000014) ⟨s, [], 0⟩ :=
    (Transition.Run.refl _).snoc (a := .create (some 3) 2000 8 none) ⟨nofun, hcreate⟩
  exact ⟨hmakes, ((slab_addresses_run hrun).2 _ h' ⟨hearly, hstep⟩ _ hmakes).1⟩

theorem slab_address_of_used {ops : MmOps σ} {mem : Mem} {env : σ} {h : History σ}
    (run : Transition.Run (fun h call h' => SlabCall.exec ops h call = some h') (History.init mem env) h) :
    h.slabs.nextSlabVirt = wrap (slabVirtStart + 4096 * h.used) := by
  refine @Transition.Run.invariant _ _ _ (fun h => h.slabs.nextSlabVirt = wrap (slabVirtStart + 4096 * h.used))
    ?_ _ _ run (by rfl)
  intro h call h' hexec hnext
  obtain ⟨t, hrun, rfl⟩ := Option.map_eq_some_iff.mp hexec
  rcases SlabCall.run_address hrun with hsame | ⟨hmoved, -⟩
  · simpa only [hsame, if_true] using hnext
  · have hlt := wrap_lt (slabVirtStart + 4096 * h.used)
    rw [← hnext] at hlt
    have hne : t.nextSlabVirt ≠ h.slabs.nextSlabVirt := by
      rw [hmoved]
      unfold wrap
      omega
    simp only [if_neg hne]
    rw [hmoved, hnext]
    unfold wrap
    omega

/-- Before a run has gone once through all addresses, a slab is in the slab area exactly
if there was an address left for it. -/
theorem slabVirt_iff {ops : MmOps σ} {mem : Mem} {env : σ} {h h' : History σ} {call : SlabCall} {slab : Nat}
    (run : Transition.Run (fun h call h' => SlabCall.exec ops h call = some h') (History.init mem env) h)
    (hexec : call.exec ops h = some h') (hmakes : call.makes ops h.slabs = some slab)
      (hcycle : h.used < 2 ^ 20) :
    SlabVirt slab ↔ h.used < slabAddresses := by
  obtain ⟨t, hrun, -⟩ := Option.map_eq_some_iff.mp hexec
  obtain ⟨rfl, -⟩ := SlabCall.makes_address hmakes hrun
  have hnext := slab_address_of_used run
  unfold slabVirtStart wrap at hnext
  unfold slabAddresses slabVirtEnd slabVirtStart
  constructor
  · rintro ⟨-, hstart, hbelow⟩
    unfold slabVirtStart at hstart
    unfold slabVirtEnd at hbelow
    omega
  · intro hleft
    exact ⟨by omega, by unfold slabVirtStart; omega, by unfold slabVirtEnd; omega⟩

/-- One frame is left. No page below the window can be mapped, since its table needs
another one; in the window only the first page is taken. -/
def lastFrameOps : MmOps Unit where
  kmalloc := fun s _ => some (0xD0000014, s)
  kfree := fun s _ => s
  pmmAllocPage := fun s => (0x400000, s)
  pmmFreePage := fun s _ => s
  vmmMapPage := fun s virt _ _ =>
    if virt < slabVirtEnd then some (.outOfMemory, s)
    else if virt < slabVirtEnd + 4096 then some (.alreadyMapped, s)
    else some (.ok, s)
  vmmUnmapPage := fun s _ => some (.ok, s)
  vmmGetPhysicalAddr := fun _ _ => some 0x400000

/-- A cache without slabs, after this many addresses were used up. -/
def waiting (n : Nat) : History Unit :=
  ⟨{ slabInit (fun _ => 0#8) () with
      nextSlabVirt := slabVirtStart + 4096 * n
      kmemCaches := [0xD0000014] }.setCache 0xD0000014 ⟨2000, 8, none, 2, [], [], []⟩, [], n⟩

theorem lastFrame_back {virt : Nat} (h : virt < slabVirtEnd + 4096) :
    backSlab lastFrameOps () virt = some (.refused, ()) := by
  have hmap : ∃ st, st ≠ .ok ∧ lastFrameOps.vmmMapPage () virt 0x400000
      (pageFlagPresent + pageFlagRw + pageFlagGlobal) = some (st, ()) := by
    by_cases hbelow : virt < slabVirtEnd
    · exact ⟨.outOfMemory, nofun, if_pos hbelow⟩
    · exact ⟨.alreadyMapped, nofun, (if_neg hbelow).trans (if_pos h)⟩
  obtain ⟨st, hst, hrun⟩ := hmap
  have hframe : lastFrameOps.pmmAllocPage () = (0x400000, ()) := rfl
  unfold backSlab
  rw [hframe]
  dsimp only
  rw [if_neg (by decide), hrun]
  simp only [Option.bind_eq_bind, Option.bind_some]
  rw [if_pos hst]

/-- `new_slab` fails there, but the address is used up. -/
theorem waiting_new {n : Nat} (hn : n ≤ slabAddresses) :
    newSlab lastFrameOps (waiting n).slabs 0xD0000014 = some (false, (waiting (n + 1)).slabs) := by
  unfold slabAddresses slabVirtEnd slabVirtStart at hn
  have hvirt : slabVirtStart + 4096 * n < slabVirtEnd + 4096 := by
    unfold slabVirtEnd slabVirtStart
    omega
  have hnext : wrap (slabVirtStart + 4096 * n + 4096) = slabVirtStart + 4096 * (n + 1) := by
    unfold slabVirtStart
    rw [wrap_of_lt (by omega), Nat.mul_succ, Nat.add_assoc]
  have hback : backSlab lastFrameOps (waiting n).slabs.env (waiting n).slabs.nextSlabVirt =
      some (.refused, ()) := lastFrame_back hvirt
  unfold newSlab
  dsimp only
  rw [hback]
  simp only [Option.bind_eq_bind, Option.bind_some]
  simp only [waiting, Slabs.setCache, hnext]

theorem waiting_alloc {n : Nat} (hn : n ≤ slabAddresses) :
    (SlabCall.alloc 0xD0000014).exec lastFrameOps (waiting n) = some (waiting (n + 1)) := by
  have hnew := waiting_new hn
  have hc : (waiting n).slabs.caches 0xD0000014 = some ⟨2000, 8, none, 2, [], [], []⟩ := by
    simp only [waiting, Slabs.setCache, Function.update_self]
  have hmakes : (SlabCall.alloc 0xD0000014).makes lastFrameOps (waiting n).slabs = none := by
    simp only [SlabCall.makes, hc, Option.bind_eq_bind, Option.bind_some]
    rw [if_neg (by decide), hnew]
    rfl
  have hrun : (SlabCall.alloc 0xD0000014).run lastFrameOps (waiting n).slabs =
      some (waiting (n + 1)).slabs := by
    rw [SlabCall.run, kmemCacheAlloc, if_neg (by decide), hc]
    simp only [Option.bind_eq_bind, Option.bind_some]
    rw [if_pos (by decide), hnew]
    rfl
  have hne : (waiting (n + 1)).slabs.nextSlabVirt ≠ (waiting n).slabs.nextSlabVirt := by
    change slabVirtStart + 4096 * (n + 1) ≠ slabVirtStart + 4096 * n
    omega
  rw [SlabCall.exec, hrun, hmakes, Option.map_some, if_neg hne]
  rfl

theorem waiting_run (n : Nat) (hn : n ≤ slabAddresses + 1) :
    Transition.Run (fun h call h' => SlabCall.exec lastFrameOps h call = some h')
      (History.init (fun _ => 0#8) ()) (waiting n) := by
  induction n with
  | zero => exact (Transition.Run.refl _).snoc (a := .create (some 3) 2000 8 none) rfl
  | succ n ih => exact (ih (by omega)).snoc (waiting_alloc (by omega))

/-- After 130049 failed allocations a slab is made in the window, as a page table. -/
theorem slab_in_window :
    ¬ ∀ (ops : MmOps Unit) (mem : Mem) (h h' : History Unit) (call : SlabCall),
      Transition.Run (fun h call h' => SlabCall.exec ops h call = some h') (History.init mem ()) h →
        SlabCall.exec ops h call = some h' → PlacesSlabs ops h call := by
  intro hall
  have hexec : ((SlabCall.alloc 0xD0000014).exec lastFrameOps (waiting (slabAddresses + 1))).isSome = true := by
    decide +kernel
  obtain ⟨h', hstep⟩ := Option.isSome_iff_exists.mp hexec
  have hmakes : (SlabCall.alloc 0xD0000014).makes lastFrameOps (waiting (slabAddresses + 1)).slabs =
      some 0xFFC01000 := by decide +kernel
  have hplace := hall lastFrameOps _ _ h' (.alloc 0xD0000014) (waiting_run _ le_rfl) hstep _ hmakes
  exact absurd hplace.1.below (by decide)

end Frostix.Slab
