import Frostix.Services
import Frostix.Services.Pages

/-!
The services of `Services` as the kernel provides them: `kmalloc` and `kfree` of the heap,
and the page functions, all on one machine. The frames that `pmm_alloc_page` handed to a
caller of these services, and that were not freed since, are recorded. -/
namespace Frostix.Services
open Machine32 Pmm Vmm Heap

/-- The heap with its live allocations on a machine, and the frames that are handed out. -/
structure Kernel where
  heap : Heap.Client Machine
  handed : List Nat

def Kernel.machine (k : Kernel) : Machine := k.heap.heap.env

def Kernel.setMachine (k : Kernel) (m : Machine) : Kernel :=
  { k with heap := { k.heap with heap := { k.heap.heap with env := m } } }

/-- `pmm_alloc_page` with the record of the frame. -/
def Kernel.allocPage (k : Kernel) : Nat × Kernel :=
  let (phys, pmm) := pmmAllocPage k.machine.pmm
  let k := k.setMachine { k.machine with pmm }
  (phys, if phys = 0 then k else { k with handed := phys / 4096 :: k.handed })

def Kernel.freePage (k : Kernel) (phys : Nat) : Kernel :=
  { k.setMachine { k.machine with pmm := pmmFreePage k.machine.pmm phys } with
    handed := k.handed.erase (phys / 4096) }

def kernelOps : MmOps Kernel where
  kmalloc k size :=
    ((HeapOp.kmalloc size).exec machinePages k.heap).map fun (ptr, heap) => (ptr, { k with heap })
  kfree k ptr := { k with heap := ⟨Heap.kfree k.heap.heap ptr, untrack k.heap.live ptr⟩ }
  pmmAllocPage := Kernel.allocPage
  pmmFreePage := Kernel.freePage
  vmmMapPage k virt phys flags :=
    (vmmMapPage k.machine virt phys flags).map fun (st, m) => (st, k.setMachine m)
  vmmUnmapPage k virt := (vmmUnmapPage k.machine virt).map fun (st, m) => (st, k.setMachine m)
  vmmGetPhysicalAddr k virt := vmmGetPhysicalAddr k.machine virt

/-- The heap is intact, it knows the structs at `A`, and `Ok` holds of its end and of the
machine, and `R` of the frames that are handed out. -/
structure KernelOk (Ok : Nat → Machine → Prop) (R : List Nat → Prop) (A : Set Nat) (k : Kernel) : Prop where
  integrity : ∃ bs, Integrity k.heap bs
  ok : Ok k.heap.heap.currentEnd k.machine
  live : ∀ a ∈ A, ∃ n, (a, n) ∈ k.heap.live
  handed : R k.handed

variable {Ok : Nat → Machine → Prop} {R : List Nat → Prop} {A : Set Nat} {k : Kernel}

theorem integrity_setMachine (h : ∃ bs, Integrity k.heap bs) (m : Machine) :
    ∃ bs, Integrity (k.setMachine m).heap bs := by
  obtain ⟨bs, hint⟩ := h
  exact ⟨bs, ⟨⟨hint.good.layout, hint.good.head, hint.good.aligned, hint.good.started⟩, hint.separated,
    hint.served, hint.distinct⟩⟩

theorem KernelOk.setMachine (h : KernelOk Ok R A k) {Ok' : Nat → Machine → Prop} {m : Machine}
    (hok : Ok' k.heap.heap.currentEnd m) : KernelOk Ok' R A (k.setMachine m) :=
  ⟨integrity_setMachine h.integrity m, hok, h.live, h.handed⟩

theorem live_word {c : Heap.Client Machine} {bs : List Block} (h : Integrity c bs) {p n : Nat}
    (hp : (p, n) ∈ c.live) : p < 2 ^ 32 := by
  obtain ⟨b, hb, rfl, -⟩ := h.served p n hp
  obtain ⟨-, hlast⟩ := h.good.layout.tiles.mem_bounds (mem_used.mp hb).1
  have hbound := h.good.layout.bound
  unfold Block.payload
  unfold Block.len at hlast
  omega

/-- The record of the allocations after `kmalloc` returned `r`. -/
theorem live_track {c : Heap.Client Machine} {bs : List Block} (h : Integrity c bs) {live : List (Nat × Nat)}
    {r n : Nat} (hc : c.live = track live r n) {Q : Nat → Nat → Prop} (hQ : Q r n)
    (hlive : ∀ a ∈ A, ∃ m, (a, m) ∈ live ∧ Q a m) :
    (r = 0 ∧ ∀ a ∈ A, ∃ m, (a, m) ∈ c.live ∧ Q a m) ∨
      (r ≠ 0 ∧ r < 2 ^ 32 ∧ r ∉ A ∧ ∀ a ∈ insert r A, ∃ m, (a, m) ∈ c.live ∧ Q a m) := by
  by_cases hr : r = 0
  · left
    rw [hc, track, if_pos hr]
    exact ⟨hr, hlive⟩
  · right
    have htrack : c.live = (r, n) :: live := by rw [hc, track, if_neg hr]
    have hword := live_word h (p := r) (n := n) (by rw [htrack]; exact List.mem_cons_self)
    have hnodup := h.distinct
    rw [htrack, List.map_cons, List.nodup_cons] at hnodup
    refine ⟨hr, hword, ?_, ?_⟩
    · intro hmem
      obtain ⟨m, hm, -⟩ := hlive r hmem
      exact hnodup.1 (List.mem_map.mpr ⟨(r, m), hm, rfl⟩)
    · intro a ha
      rw [htrack]
      rcases ha with rfl | ha
      · exact ⟨n, List.mem_cons_self, hQ⟩
      · obtain ⟨m, hm, hq⟩ := hlive a ha
        exact ⟨m, List.mem_cons_of_mem _ hm, hq⟩

/-- `kmalloc` of the kernel, whatever is kept of the machine. -/
theorem kmalloc_kernel {bs : List Block} (hint : Integrity k.heap bs) (hops : Grows machinePages Ok)
    (hok : Ok k.heap.heap.currentEnd k.machine) (size : Nat) :
    ∃ r c, kernelOps.kmalloc k size = some (r, { k with heap := c }) ∧ (∃ bs', Integrity c bs') ∧
      c.live = track k.heap.live r size ∧ Ok c.heap.currentEnd c.heap.env := by
  obtain ⟨r, c, hrun, ⟨hint', hok', -⟩⟩ := hint.kmalloc hops hok size
  refine ⟨r, c, ?_, hint', ?_, hok'⟩
  · simp only [kernelOps, hrun, Option.map_some]
  · obtain ⟨⟨p, h'⟩, hmalloc, heq⟩ := Option.bind_eq_some_iff.mp hrun
    cases heq
    rfl

theorem kernelOps_frees : Frees kernelOps (KernelOk Ok R) := by
  rintro A k p ⟨⟨bs, hint⟩, hok, hlive, hhanded⟩ hp
  have hout := hint.kfree hok (Or.inr (hlive p hp))
  refine ⟨hout.integrity, hout.ok, ?_, hhanded⟩
  rintro a ⟨ha, hne⟩
  obtain ⟨n, hn⟩ := hlive a ha
  exact ⟨n, mem_untrack.mpr ⟨hn, hne⟩⟩

theorem kernelOps_allocator (hops : Grows machinePages Ok) : Allocator kernelOps (KernelOk Ok R) where
  kmalloc := by
    rintro A k size ⟨⟨bs, hint⟩, hok, hlive, hhanded⟩
    obtain ⟨r, c, hrun, ⟨bs', hint'⟩, hc, hok'⟩ := kmalloc_kernel hint hops hok size
    refine ⟨r, _, hrun, ?_⟩
    rcases live_track hint' hc (Q := fun _ _ => True) trivial (fun a ha => by simpa using hlive a ha) with
      ⟨hr, hlive'⟩ | ⟨hr, hword, hnew, hlive'⟩
    · exact Or.inl ⟨hr, ⟨bs', hint'⟩, hok', fun a ha => by simpa using hlive' a ha, hhanded⟩
    · exact Or.inr ⟨hr, hword, hnew, ⟨bs', hint'⟩, hok', fun a ha => by simpa using hlive' a ha, hhanded⟩
  kfree := kernelOps_frees

theorem kernelOps_unmaps {P : Nat → Prop} (hP : ∀ va, P va → va / 4096 + 1 < pageLimit)
    (hsound : ∀ e m, Ok e m → Sound m)
    (hok : ∀ e m m' va, P va → Ok e m → Cleared m m' (va / 4096) → Ok e m') :
    Unmaps kernelOps (KernelOk Ok R) P := by
  intro va hva A k hk
  obtain ⟨st, m', hrun, hc⟩ := vmmUnmapPage_anywhere (hsound _ _ hk.ok) (hP va hva)
  refine ⟨st, k.setMachine m', ?_, hk.setMachine (hok _ _ _ va hva hk.ok hc)⟩
  simp only [kernelOps, hrun, Option.map_some]

/-- What `pmm_alloc_page` does to the kernel: nothing, or a frame is taken for the caller. -/
theorem allocPage_spec (h : Sound k.machine) :
    (k.allocPage = (0, k) ∧ ∀ b, ¬ Free k.machine.pmm b) ∨
      ∃ f q, k.allocPage = (f * 4096,
          { k.setMachine { k.machine with pmm := q } with handed := f :: k.handed }) ∧ 0 < f ∧ f < 2 ^ 20 ∧
        Taken k.machine.pmm q f 1 ∧ WellFormed q := by
  unfold Kernel.allocPage
  rcases pmmAllocPage_spec h.pmm with ⟨hrun, hnone⟩ | ⟨f, q, hrun, ht, hq⟩
  · left
    rw [hrun]
    exact ⟨rfl, hnone⟩
  · right
    have hpos := ht.pos
    have hfits := ht.fits
    have htotal := h.pmm.total_le
    refine ⟨f, q, ?_, hpos, by omega, ht, hq⟩
    rw [hrun]
    simp only [if_neg (by omega : ¬ f * 4096 = 0), Nat.mul_div_cancel f (by decide : 0 < 4096)]
    rfl

theorem freePage_spec (h : Sound k.machine) {f : Nat} (hf : Owned k.machine f) :
    ∃ q, k.freePage (f * 4096) =
        { k.setMachine { k.machine with pmm := q } with handed := k.handed.erase f } ∧
      Sound { k.machine with pmm := q } ∧ q.totalPages = k.machine.pmm.totalPages ∧
      ∀ b, Free q b ↔ Free k.machine.pmm b ∨ b = f := by
  have hpos := hf.pos
  have hdiv : f * 4096 / 4096 = f := Nat.mul_div_cancel f (by decide)
  obtain ⟨hrel, hwf⟩ := releasePage_spec h.pmm hpos hf.lt
  have hfree : pmmFreePage k.machine.pmm (f * 4096) = releasePage k.machine.pmm f := by
    rw [pmmFreePage, if_neg (by omega), hdiv]
  refine ⟨releasePage k.machine.pmm f, ?_, ?_, hrel.total_eq, hrel.free_iff⟩
  · rw [Kernel.freePage, hfree, hdiv]
  · have hkeep : ∀ b, bitmapTestBit k.machine.pmm b = true → b ≠ f →
        bitmapTestBit (releasePage k.machine.pmm f) b = true := by
      intro b hb hne
      rw [testBit_iff] at hb ⊢
      rw [hrel.size_eq, hrel.free_iff]
      exact ⟨hb.1, fun hor => hor.elim hb.2 hne⟩
    refine h.setPmm hwf (hkeep _ h.directory hf.noDirectory.symm) ?_
    intro i hi b hb
    refine hkeep b (h.tables.marked i hi b hb) ?_
    rintro rfl
    exact hf.noTable i hi hb

end Frostix.Services
