import Frostix.Services.Possession
import Frostix.Slab.Addresses
import Frostix.Slab.Runs

/-!
Heap and slabs on one machine. The descriptors of the caches come from `kmalloc`, the slabs
from the page functions. A slab gives back its own page and frame; `kmem_cache_destroy` also
releases the page of the descriptor, which is a page of the heap. -/
namespace Frostix.Slab
open Machine32 ByteMemory Pmm Vmm Heap Services

/-- The heap is intact and ends at `lo` or behind it, and the slabs have the pages `P`. -/
def Partitioned (P : Set Nat) (lo : Nat) (k : Kernel) : Prop :=
  KernelOk (Divided P lo) (fun _ => True) ∅ k

/-- Every page of `[HEAP_START, heap_current_end)` is mapped to a frame that is marked
allocated. -/
def HeapMapped (k : Kernel) : Prop :=
  ∀ q ∈ heapPages k.heap.heap.currentEnd,
    ∃ f, k.machine.tr q = some f ∧ bitmapTestBit k.machine.pmm f = true

section Pages

variable {P : Set Nat} {lo : Nat} {k : Kernel}

theorem Partitioned.heapMapped (h : Partitioned P lo k) : HeapMapped k := by
  intro q hq
  have hposs := h.ok.possessed
  obtain ⟨f, hf, howned⟩ := hposs.mapped q (Or.inl hq)
  exact ⟨f, hf, howned.testBit hposs.booted.toSound⟩

theorem Partitioned.setMachine {Q : Set Nat} (h : Partitioned P lo k) {m : Machine} (handed : List Nat)
    (hm : Divided Q lo k.heap.heap.currentEnd m) :
    Partitioned Q lo { k.setMachine m with handed } := by
  obtain ⟨hint, hok, hlive, -⟩ := KernelOk.setMachine h hm
  exact ⟨hint, hok, hlive, trivial⟩

theorem Partitioned.mono {lo' : Nat} (h : Partitioned P lo k) (hlo : lo' ≤ k.heap.heap.currentEnd) :
    Partitioned P lo' k :=
  ⟨h.integrity, ⟨h.ok.possessed, h.ok.apart, h.ok.aligned, h.ok.bound, hlo⟩, h.live, trivial⟩

theorem page_below {virt : Nat} (h : virt < slabVirtEnd) : virt / 4096 < windowPage := by
  unfold slabVirtEnd at h
  unfold windowPage
  omega

theorem kernelOps_mapPage (k : Kernel) {m m' : Machine} {virt phys flags : Nat} {st : KernelStatus}
    (h : vmmMapPage m virt phys flags = some (st, m')) (handed : List Nat) :
    kernelOps.vmmMapPage { k.setMachine m with handed } virt phys flags =
      some (st, { k.setMachine m' with handed }) := by
  change (vmmMapPage m virt phys flags).map _ = _
  rw [h]
  rfl

/-- A slab gets a page that nobody had, or nothing changes for the pages. -/
theorem backSlab_partitioned (h : Partitioned P lo k) {virt : Nat} (hvirt : virt < slabVirtEnd) :
    ∃ backing k', backSlab kernelOps k virt = some (backing, k') ∧
      (backing = .mapped → Partitioned (insert (virt / 4096) P) lo k' ∧ virt / 4096 ∉ P) ∧
      (backing ≠ .mapped → Partitioned P lo k') := by
  have hposs := h.ok.possessed
  have hsound := hposs.booted.toSound
  unfold backSlab
  rw [show kernelOps.pmmAllocPage = Kernel.allocPage from rfl]
  rcases allocPage_spec hsound with ⟨hrun, -⟩ | ⟨f, q, hrun, hpos, hlt, ht, hwf⟩
  · rw [hrun]
    exact ⟨.noFrame, k, rfl, nofun, fun _ => h⟩
  rw [hrun]
  dsimp only
  rw [if_neg (by omega : ¬ f * 4096 = 0)]
  have hquiet := hsound.take ht hwf
  have hdiv : f * 4096 / 4096 = f := Nat.mul_div_cancel f (by decide)
  have hown : Owned { k.machine with pmm := q } f := hsound.taken_owned ht le_rfl (Nat.lt_succ_self f)
  have hword : virt < 2 ^ 32 := lt_trans hvirt (by decide)
  rcases @vmmMapPage_anywhere _ hquiet.sound virt (f * 4096) (pageFlagPresent + pageFlagRw + pageFlagGlobal)
    hword (by omega) (by rw [hdiv]; exact hown) (by decide) with ⟨st, hst, hmap, -⟩ | ⟨m', hmap, hm⟩
  · -- the frame is given back, and nothing else happened
    obtain ⟨q', hfree, hsound', htotal, hiff⟩ := @freePage_spec
      { k.setMachine { k.machine with pmm := q } with handed := f :: k.handed } hquiet.sound f hown
    refine ⟨.refused, { k.setMachine { k.machine with pmm := q' } with handed := (f :: k.handed).erase f },
      ?_, nofun, fun _ => h.setMachine _ (h.ok.setPmm hsound' (htotal.trans ht.total_eq) ?_)⟩
    · rw [kernelOps_mapPage k hmap]
      simp only [Option.bind_eq_bind, Option.bind_some, if_pos hst]
      rw [show kernelOps.pmmFreePage = Kernel.freePage from rfl, hfree]
      rfl
    · intro b hb
      rcases (hiff b).mp hb with hb | rfl
      · exact ((ht.free_iff b).mp hb).1
      · exact ht.was_free 0 (by decide)
  · rw [hdiv] at hm
    obtain ⟨hnew, hfresh⟩ := hposs.installed ht hwf (page_below hvirt) hm
    refine ⟨.mapped, { k.setMachine m' with handed := f :: k.handed }, ?_,
      fun _ => ⟨h.setMachine _ (h.ok.join hnew hfresh), fun hP => hfresh (Or.inr hP)⟩,
      fun hne => absurd rfl hne⟩
    rw [kernelOps_mapPage k hmap]
    rfl

theorem kernelOps_lookup (h : Vmm.Sound k.machine) {virt f : Nat} (hvirt : virt / 4096 < windowPage)
    (hf : k.machine.tr (virt / 4096) = some f) :
    kernelOps.vmmGetPhysicalAddr k virt = some (f * 4096 + virt % 4096) := by
  have hindex : pdIndex virt < 1023 := by
    rw [pdIndex_eq]
    exact div_page hvirt
  have hlookup := vmmGetPhysicalAddr_spec h hindex
  rw [hf] at hlookup
  exact hlookup

/-- A slab gives back its page and its frame. -/
theorem releaseSlab_partitioned (h : Partitioned P lo k) {slab : Nat} (haligned : slab % 4096 = 0)
    (hslab : slab / 4096 ∈ P) :
    ∃ k', releaseSlab kernelOps k slab = some k' ∧ Partitioned (P \ {slab / 4096}) lo k' := by
  have hposs := h.ok.possessed
  have hsound := hposs.booted.toSound
  have hU : slab / 4096 ∈ heapPages k.heap.heap.currentEnd ∪ P := Or.inr hslab
  have hbelow := hposs.below _ hU
  obtain ⟨f, hf, howned⟩ := hposs.mapped _ hU
  obtain ⟨st, m', hunmap, hc⟩ := @vmmUnmapPage_anywhere _ hsound slab
    (Nat.lt_of_le_of_lt hbelow (by decide))
  have howned' : Owned m' f := by
    refine ⟨howned.pos, ?_, ?_, fun i hi htable => howned.noTable i hi (hc.tables i hi f htable), ?_⟩
    · rw [hc.pmm]
      exact howned.lt
    · rw [hc.pmm]
      exact howned.taken
    · rw [hc.cr3]
      exact howned.noDirectory
  obtain ⟨q, hfree, hsound', htotal, hiff⟩ := @freePage_spec (k.setMachine m') hc.sound f howned'
  refine ⟨_, ?_, h.setMachine (k.handed.erase f) (h.ok.leave hslab
    (hposs.released hU hf hc hsound' htotal hiff))⟩
  have hops : kernelOps.vmmUnmapPage k slab = some (st, k.setMachine m') := by
    change (vmmUnmapPage k.machine slab).map _ = _
    rw [hunmap]
    rfl
  have hdown : alignDown (f * 4096 + slab % 4096) 4096 = f * 4096 := by
    unfold alignDown
    omega
  rw [releaseSlab, kernelOps_lookup hsound hbelow hf]
  simp only [Option.bind_eq_bind, Option.bind_some]
  rw [hops, hdown]
  simp only [Option.bind_some]
  rw [show kernelOps.pmmFreePage = Kernel.freePage from rfl, hfree]
  rfl

/-- Slabs of different pages are released one after the other. -/
theorem releaseSlabs_partitioned (slabs : List Nat) :
    ∀ {P : Set Nat} {k : Kernel}, Partitioned P lo k → slabs.Nodup →
      (∀ x ∈ slabs, x % 4096 = 0 ∧ x / 4096 ∈ P) → ∃ k', releaseSlabs kernelOps slabs k = some k' ∧
        Partitioned (P \ {p | ∃ x ∈ slabs, x / 4096 = p}) lo k' := by
  induction slabs with
  | nil =>
      intro P k h _ _
      refine ⟨k, rfl, ?_⟩
      simpa using h
  | cons slab rest ih =>
      intro P k h hnodup hin
      obtain ⟨hslab, hnodup'⟩ := List.nodup_cons.mp hnodup
      obtain ⟨haligned, hP⟩ := hin slab List.mem_cons_self
      obtain ⟨k₁, hrun, h₁⟩ := releaseSlab_partitioned h haligned hP
      have hin' : ∀ x ∈ rest, x % 4096 = 0 ∧ x / 4096 ∈ P \ {slab / 4096} := by
        intro x hx
        obtain ⟨hx', hxP⟩ := hin x (List.mem_cons_of_mem _ hx)
        refine ⟨hx', hxP, fun heq => hslab ?_⟩
        rw [Set.mem_singleton_iff] at heq
        rwa [show slab = x by omega]
      obtain ⟨k₂, hrun₂, h₂⟩ := ih h₁ hnodup' hin'
      refine ⟨k₂, ?_, ?_⟩
      · rw [releaseSlabs, hrun]
        exact hrun₂
      · have hset : (P \ {slab / 4096}) \ {p | ∃ x ∈ rest, x / 4096 = p} =
            P \ {p | ∃ x ∈ slab :: rest, x / 4096 = p} := by
          ext p
          simp only [Set.mem_sdiff, Set.mem_singleton_iff, Set.mem_ofPred_eq, List.exists_mem_cons_iff, not_or,
            and_assoc, eq_comm]
        rw [← hset]
        exact h₂

end Pages

end Frostix.Slab
