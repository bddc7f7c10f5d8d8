import Frostix.Heap.Retry
import Frostix.Services.Kernel
import Frostix.Vmm.Supply

/-!
The page that `kmalloc` adds to the heap for a small block. Whether it can be had is known from
the machine before the call, and so is what is left of the frames behind it. -/
namespace Frostix.Services
open Machine32 Pmm Vmm Heap RunSearch

/-- The page behind the end of the heap, if no block will hold `size` bytes. -/
def growth (h : KernelHeap Machine) (bs : List Block) (size : Nat) : Finset Nat :=
  if ∃ b ∈ coalesced bs, b.Fits size then ∅ else {h.currentEnd / 4096}

section Expansion
variable {m : Machine} {e : Nat}

/-- One attempt to add a page. When it fails nothing remains of it, so the next ones fail too. -/
theorem expandOnce_supply (h : Booted m) (haligned : e % 4096 = 0) (hbelow : e ≤ windowPage * 4096) :
    (expandOnce machinePages m e 1 = some (false, m) ∧ Refused m ∅ (e / 4096)) ∨
      ∃ m', expandOnce machinePages m e 1 = some (true, m') ∧ ¬ Refused m ∅ (e / 4096) ∧
        Supplied m m' {e / 4096} := by
  have hfit := h.pmm.firstFit one_pos (by decide : 1 < 2 ^ 32)
  have htotal := h.pmm.total_le
  unfold windowPage at hbelow
  unfold expandOnce machinePages
  dsimp only
  rw [← hfit.single]
  rcases pmmAllocPage_spent h.pmm with ⟨hrun, hzero⟩ | ⟨q, hrun, ht, hq, hspent⟩
  · rw [hrun]
    refine Or.inl ⟨rfl, Or.inr (Or.inr (Or.inr ?_))⟩
    rw [insert_empty_eq, framesFor_singleton]
    omega
  have hpos := ht.pos
  have hfits := ht.fits
  have hback : pmmFreePages q (Nat.nth (Free m.pmm) 0 * 4096) 1 = m.pmm := by
    obtain ⟨s, hlow⟩ := exists_lowestRun one_pos ht.was_free
    have hrestore := hfit.restores s hlow
    rwa [← hfit.single, hrun] at hrestore
  have hvirt : wrap (e + 0 * 4096) = e := by
    rw [Nat.zero_mul, Nat.add_zero, wrap_of_lt (by omega)]
  have hphys : wrap (Nat.nth (Free m.pmm) 0 * 4096 + 0 * 4096) = Nat.nth (Free m.pmm) 0 * 4096 := by
    rw [Nat.zero_mul, Nat.add_zero, wrap_of_lt (by omega)]
  rw [hrun]
  simp only [if_neg (by omega : ¬ Nat.nth (Free m.pmm) 0 * 4096 = 0), vmmMapPages, mapPagesFrom, hvirt, hphys]
  rcases @vmmMapPage_supply _ e (pageFlagPresent + pageFlagRw) h q ht hq hspent (by omega) (by decide) with
    ⟨st, hst, hmap, hrefused⟩ | ⟨m', hmap, hnot, hsupply⟩
  · left
    rw [hmap]
    simp only [Option.bind_eq_bind, Option.bind_some, if_pos hst, unmapFirst, hback]
    exact ⟨trivial, hrefused⟩
  · right
    rw [hmap]
    exact ⟨m', rfl, hnot, hsupply⟩

theorem appendBlock_env {σ : Type} {h h' : KernelHeap σ} {size : Nat} (hrun : appendBlock h size = some h') :
    h'.env = h.env := by
  unfold appendBlock at hrun
  dsimp only at hrun
  split_ifs at hrun with hhead
  · cases hrun
    rfl
  · obtain ⟨last, -, hlast⟩ := Option.bind_eq_some_iff.mp hrun
    cases hlast
    rfl

theorem expandRetry_supply (retries : Nat) {h h' : KernelHeap Machine} (hm : Booted h.env)
    (haligned : h.currentEnd % 4096 = 0) (hbelow : h.currentEnd ≤ windowPage * 4096)
    (hrun : expandRetry machinePages 4096 retries h = some (.ok, h')) :
    ¬ Refused h.env ∅ (h.currentEnd / 4096) ∧ Supplied h.env h'.env {h.currentEnd / 4096} := by
  induction retries with
  | zero => cases hrun
  | succ retries ih =>
      obtain ⟨⟨done, env⟩, honce, hrun⟩ := Option.bind_eq_some_iff.mp hrun
      rcases expandOnce_supply hm haligned hbelow with ⟨hfail, -⟩ | ⟨m', hdone, hnot, hsupply⟩
      · cases hfail.symm.trans honce
        exact ih hrun
      · cases hdone.symm.trans honce
        obtain ⟨h₁, happend, heq⟩ := Option.bind_eq_some_iff.mp hrun
        cases heq
        rw [appendBlock_env happend]
        exact ⟨hnot, hsupply⟩

end Expansion

section SmallBlock
variable {Ok : Nat → Machine → Prop} {k k' : Kernel} {bs : List Block} {size p : Nat}

theorem mem_growth {h : KernelHeap Machine} {q : Nat} (hq : q ∈ growth h bs size) : q = h.currentEnd / 4096 := by
  unfold growth at hq
  split_ifs at hq with hfit
  · exact absurd hq (Finset.notMem_empty q)
  · exact Finset.mem_singleton.mp hq

theorem growth_card (h : KernelHeap Machine) (bs : List Block) (size : Nat) : (growth h bs size).card ≤ 1 := by
  unfold growth
  split_ifs with hfit
  · exact Nat.zero_le 1
  · exact (Finset.card_singleton _).le

/-- A page that can be had is not one of the window, where the first page shows a page table. -/
theorem growth_below {h : KernelHeap Machine} {m : Machine} (hm : Booted m)
    (hbelow : h.currentEnd ≤ windowPage * 4096)
    (hhad : ∀ q ∈ growth h bs size, ¬ Refused m ∅ q) : ∀ q ∈ growth h bs size, q < windowPage := by
  intro q hq
  have hend := mem_growth hq
  refine lt_of_le_of_ne (by omega) fun hwindow => hhad q hq ?_
  obtain ⟨t, ht⟩ := Option.ne_none_iff_exists'.mp hm.firstTable
  rw [hwindow]
  exact refused_of_window hm.toSound le_rfl (by decide) ((hm.tr_window le_rfl (by decide)).trans ht)

/-- What a block of less than a page takes from the machine. -/
theorem kmalloc_supply (hpos : 0 < size) (hsmall : size + 40 ≤ 4096) (hops : Grows machinePages Ok)
    (hg : Good k.heap.heap bs) (hok : Ok k.heap.heap.currentEnd k.machine) (hm : Booted k.machine)
    (hbelow : k.heap.heap.currentEnd ≤ windowPage * 4096) (hrun : kernelOps.kmalloc k size = some (p, k'))
    (hp : p ≠ 0) :
    (∀ q ∈ growth k.heap.heap bs size, ¬ Refused k.machine ∅ q) ∧
      Supplied k.machine k'.machine (growth k.heap.heap bs size) := by
  obtain ⟨⟨ptr, c⟩, hexec, heq⟩ := Option.map_eq_some_iff.mp hrun
  cases heq
  obtain ⟨⟨ptr, h'⟩, hmalloc, heq⟩ := Option.bind_eq_some_iff.mp hexec
  cases heq
  rcases kmalloc_env hops hg hok hpos.ne' (by omega) hmalloc hp with ⟨hfit, henv⟩ | ⟨hall, mem, t, hexpand, henv⟩
  · have hgrow : growth k.heap.heap bs size = ∅ := if_pos hfit
    rw [hgrow]
    refine ⟨fun q hq => absurd hq (Finset.notMem_empty q), ?_⟩
    change Supplied k.machine h'.env ∅
    rw [henv]
    exact Supplied.refl hm.toSound
  · have hgrow : growth k.heap.heap bs size = {k.heap.heap.currentEnd / 4096} :=
      if_neg fun ⟨b, hb, hfit⟩ => hall b hb hfit
    have hbytes : mallocBytes size = 4096 := by
      unfold mallocBytes sizeofBlock alignUp wrap
      omega
    rw [heapExpand, show alignUp (wrap (wrap (size + sizeofBlock) + sizeofBlock)) 4096 = 4096 from hbytes] at hexpand
    obtain ⟨hnot, hsupply⟩ := @expandRetry_supply 3 { k.heap.heap with mem } t hm hg.aligned hbelow hexpand
    rw [hgrow]
    refine ⟨fun q hq => ?_, ?_⟩
    · rw [Finset.mem_singleton.mp hq]
      exact hnot
    · change Supplied k.machine h'.env _
      rw [henv]
      exact hsupply

end SmallBlock

end Frostix.Services
