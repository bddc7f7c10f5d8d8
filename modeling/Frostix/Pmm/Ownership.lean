import Frostix.Lib.Transition
import Frostix.Pmm.WellFormed

/-!
Runs of the page allocator with its callers. Every page handed out is recorded
as held until it is freed; frees may name held pages in any grouping. -/
namespace Frostix.Pmm
open Machine32

structure Owned where
  pmm : BitmapAllocator
  held : Finset Nat

def PmmOp.pages : PmmOp → Nat
  | .allocPage => 1
  | .allocPages count => count
  | .freePage _ => 0
  | .freePages _ _ => 0

def blockPages (addr count : Nat) : Finset Nat :=
  if addr = 0 then ∅ else Finset.Ico (addr / 4096) (addr / 4096 + count)

def PmmOp.freed : PmmOp → Finset Nat
  | .allocPage => ∅
  | .allocPages _ => ∅
  | .freePage addr => {addr / 4096}
  | .freePages addr count => Finset.Ico (addr / 4096) (addr / 4096 + count)

/-- One call with its bookkeeping: a returned block becomes held, a freed page is
no longer held. -/
def Owned.exec (s : Owned) (op : PmmOp) : Nat × Owned :=
  let (addr, pmm) := op.exec s.pmm
  (addr, ⟨pmm, (s.held ∪ blockPages addr op.pages) \ op.freed⟩)

def PmmOp.Allowed (s : Owned) : PmmOp → Prop
  | .allocPage => True
  | .allocPages _ => True
  | .freePage addr => addr / 4096 ∈ s.held
  | .freePages addr count => ∀ i < count, addr / 4096 + i ∈ s.held

def OwnedStep (s : Owned) (op : PmmOp) (t : Owned) : Prop := op.Allowed s ∧ t = (s.exec op).2

def HeldMarked (s : Owned) : Prop :=
  ∀ b ∈ s.held, 0 < b ∧ b < s.pmm.totalPages ∧ ¬ Free s.pmm b

/-- A page that is marked at the start and that no caller holds then. -/
def Reserved (start : Owned) (b : Nat) : Prop := ¬ Free start.pmm b ∧ b ∉ start.held

/-- The run invariant: reserved pages stay marked and are never held. -/
structure Consistent (start s : Owned) : Prop where
  wf : WellFormed s.pmm
  marked : HeldMarked s
  reserved : ∀ b, Reserved start b → ¬ Free s.pmm b ∧ b ∉ s.held
  total_eq : s.pmm.totalPages = start.pmm.totalPages

/-- What an allocation returns: `count` consecutive managed pages, free just before,
held by nobody and not reserved. -/
def Fresh (start s : Owned) (addr count : Nat) : Prop :=
  ∃ first, addr = first * 4096 ∧ first + count ≤ s.pmm.totalPages ∧
    ∀ i < count, Free s.pmm (first + i) ∧ first + i ∉ s.held ∧ ¬ Reserved start (first + i)

theorem Consistent.fresh_of_taken {start s : Owned} {q : BitmapAllocator} {first count : Nat}
    (h : Consistent start s) (ht : Taken s.pmm q first count) :
    Fresh start s (first * 4096) count := by
  refine ⟨first, rfl, ht.fits, ?_⟩
  intro i hi
  have hfree := ht.was_free i hi
  refine ⟨hfree, ?_, ?_⟩
  · intro hheld
    exact (h.marked _ hheld).2.2 hfree
  · intro hres
    exact (h.reserved _ hres).1 hfree

theorem mem_blockPages_of_taken {p q : BitmapAllocator} {first count b : Nat}
    (ht : Taken p q first count) :
    b ∈ blockPages (first * 4096) count ↔ first ≤ b ∧ b < first + count := by
  have hpos := ht.pos
  rw [blockPages, if_neg (by omega), Nat.mul_div_cancel _ (by decide), Finset.mem_Ico]

theorem Consistent.take {start s : Owned} {q : BitmapAllocator} {first count : Nat}
    (h : Consistent start s) (ht : Taken s.pmm q first count) (hq : WellFormed q) :
    Consistent start ⟨q, s.held ∪ blockPages (first * 4096) count⟩ := by
  have hpos := ht.pos
  have hfits := ht.fits
  refine ⟨hq, ?_, ?_, ht.total_eq.trans h.total_eq⟩
  · intro b hb
    simp only [ht.total_eq, ht.free_iff]
    rcases Finset.mem_union.mp hb with hold | hnew
    · obtain ⟨hb0, hbt, hbf⟩ := h.marked b hold
      exact ⟨hb0, hbt, fun hfree => hbf hfree.1⟩
    · have hrange := (mem_blockPages_of_taken ht).mp hnew
      exact ⟨by omega, by omega, fun hfree => hfree.2 hrange⟩
  · intro b hres
    obtain ⟨hmark, hheld⟩ := h.reserved b hres
    refine ⟨fun hfree => hmark ((ht.free_iff b).mp hfree).1, ?_⟩
    intro hmem
    rcases Finset.mem_union.mp hmem with hold | hnew
    · exact hheld hold
    · have hrange := (mem_blockPages_of_taken ht).mp hnew
      have hfree := ht.was_free (b - first) (by omega)
      rw [show first + (b - first) = b by omega] at hfree
      exact hmark hfree

theorem Consistent.release {start s : Owned} {q : BitmapAllocator} {gone : Finset Nat}
    (h : Consistent start s) (hsub : gone ⊆ s.held) (hq : WellFormed q)
    (hfree : ∀ b, Free q b ↔ Free s.pmm b ∨ b ∈ gone)
    (htotal : q.totalPages = s.pmm.totalPages) : Consistent start ⟨q, s.held \ gone⟩ := by
  refine ⟨hq, ?_, ?_, htotal.trans h.total_eq⟩
  · intro b hb
    obtain ⟨hheld, hkeep⟩ := Finset.mem_sdiff.mp hb
    obtain ⟨hb0, hbt, hbf⟩ := h.marked b hheld
    simp only [htotal, hfree]
    exact ⟨hb0, hbt, fun hor => hor.elim hbf hkeep⟩
  · intro b hres
    obtain ⟨hmark, hheld⟩ := h.reserved b hres
    refine ⟨?_, fun hmem => hheld (Finset.mem_sdiff.mp hmem).1⟩
    rw [hfree]
    exact fun hor => hor.elim hmark fun hgone => hheld (hsub hgone)

theorem Consistent.freePages {start s : Owned} {addr count : Nat} (h : Consistent start s)
    (hheld : ∀ i < count, addr / 4096 + i ∈ s.held) :
    Consistent start ⟨pmmFreePages s.pmm addr count,
      s.held \ Finset.Ico (addr / 4096) (addr / 4096 + count)⟩ := by
  obtain ⟨hwf, hfree, _, htotal⟩ := @pmmFreePages_spec _ h.wf addr count
    (fun i hi => ⟨(h.marked _ (hheld i hi)).1, (h.marked _ (hheld i hi)).2.1⟩)
  refine h.release ?_ hwf ?_ htotal
  · intro b hb
    obtain ⟨hlo, hhi⟩ := Finset.mem_Ico.mp hb
    have hmem := hheld (b - addr / 4096) (by omega)
    rwa [show addr / 4096 + (b - addr / 4096) = b by omega] at hmem
  · intro b
    rw [hfree, Finset.mem_Ico]

theorem Consistent.freePage {start s : Owned} {addr : Nat} (h : Consistent start s)
    (hheld : addr / 4096 ∈ s.held) :
    Consistent start ⟨pmmFreePage s.pmm addr, s.held \ {addr / 4096}⟩ := by
  obtain ⟨hpos, hlt, _⟩ := h.marked _ hheld
  have haddr : addr ≠ 0 := by
    rintro rfl
    simp at hpos
  obtain ⟨hrel, hwf⟩ := releasePage_spec h.wf hpos hlt
  have hcons := @Consistent.release _ _ (pmmFreePage s.pmm addr) {addr / 4096} h
    (by simpa using hheld)
  rw [pmmFreePage, if_neg haddr] at hcons ⊢
  refine hcons hwf ?_ hrel.total_eq
  intro b
  rw [hrel.free_iff, Finset.mem_singleton]

theorem Consistent.step {start s : Owned} (h : Consistent start s) (op : PmmOp)
    (hop : op.Allowed s) :
    Consistent start (s.exec op).2 ∧
      ((s.exec op).1 ≠ 0 → Fresh start s (s.exec op).1 op.pages) := by
  cases op with
  | allocPage =>
      rcases pmmAllocPage_spec h.wf with ⟨hnone, _⟩ | ⟨b, q, hsome, ht, hq⟩
      · simp only [Owned.exec, PmmOp.exec, PmmOp.freed, hnone, blockPages, if_true,
          Finset.union_empty, Finset.sdiff_empty]
        exact ⟨h, fun hne => absurd rfl hne⟩
      · simp only [Owned.exec, PmmOp.exec, PmmOp.freed, PmmOp.pages, hsome, Finset.sdiff_empty]
        exact ⟨h.take ht hq, fun _ => h.fresh_of_taken ht⟩
  | allocPages count =>
      rcases pmmAllocPages_spec h.wf count with ⟨hnone, _⟩ | ⟨first, q, hsome, _, _, ht, hq⟩
      · simp only [Owned.exec, PmmOp.exec, PmmOp.freed, hnone, blockPages, if_true,
          Finset.union_empty, Finset.sdiff_empty]
        exact ⟨h, fun hne => absurd rfl hne⟩
      · simp only [Owned.exec, PmmOp.exec, PmmOp.freed, PmmOp.pages, hsome, Finset.sdiff_empty]
        exact ⟨h.take ht hq, fun _ => h.fresh_of_taken ht⟩
  | freePage addr =>
      simp only [Owned.exec, PmmOp.exec, PmmOp.freed, blockPages, if_true, Finset.union_empty]
      exact ⟨h.freePage hop, fun hne => absurd rfl hne⟩
  | freePages addr count =>
      simp only [Owned.exec, PmmOp.exec, PmmOp.freed, blockPages, if_true, Finset.union_empty]
      exact ⟨h.freePages hop, fun hne => absurd rfl hne⟩

theorem Consistent.start {s : Owned} (hwf : WellFormed s.pmm) (hheld : HeldMarked s) :
    Consistent s s :=
  ⟨hwf, hheld, fun _ hres => hres, rfl⟩

theorem Consistent.of_run {start s : Owned} (hwf : WellFormed start.pmm) (hheld : HeldMarked start)
    (run : Transition.Run OwnedStep start s) : Consistent start s := by
  refine run.invariant ?_ (Consistent.start hwf hheld)
  rintro t op u ⟨hop, rfl⟩ ht
  exact (ht.step op hop).1

/-- From a well-formed allocator every reachable state is well-formed, and every
block handed out is fresh: it was free, nobody holds it and it was not reserved. -/
theorem owned_run_sound {start s : Owned} (hwf : WellFormed start.pmm)
    (hheld : HeldMarked start) (run : Transition.Run OwnedStep start s) :
    WellFormed s.pmm ∧ s.pmm.totalPages = start.pmm.totalPages ∧
      ∀ op : PmmOp, op.Allowed s → (s.exec op).1 ≠ 0 →
        Fresh start s (s.exec op).1 op.pages := by
  have hcons := Consistent.of_run hwf hheld run
  exact ⟨hcons.wf, hcons.total_eq, fun op hop => (hcons.step op hop).2⟩

def smallAllocator : BitmapAllocator :=
  { bitsAddr := 0x200000
    bits := fun i => if i = 0 then 0x01#8 else if i = 1 then 0x00#8 else 0xFF#8
    size := 2, totalPages := 16, freePages := 15, usedPages := 1 }

theorem smallAllocator_wellFormed : WellFormed smallAllocator := by
  refine ⟨by decide, by decide, by decide, ?_, by decide, by decide⟩
  intro b hb hbs
  exact absurd hbs (Nat.not_lt.mpr hb)

/-- Two blocks are taken, one page of the first is freed, and the next block
reuses nothing that is still held. -/
theorem owned_run_sound_small :
    let s := ((((Owned.mk smallAllocator ∅).exec (.allocPages 3)).2.exec .allocPage).2.exec
      (.freePage 0x2000)).2
    WellFormed s.pmm ∧ (s.exec (.allocPages 2)).1 = 0x5000 ∧
      Fresh ⟨smallAllocator, ∅⟩ s 0x5000 2 := by
  intro s
  have hrun : Transition.Run OwnedStep ⟨smallAllocator, ∅⟩ s := by
    refine ((Transition.Run.refl _).snoc (a := .allocPages 3) ⟨trivial, rfl⟩).snoc
      (a := .allocPage) ⟨trivial, rfl⟩ |>.snoc (a := .freePage 0x2000) ⟨?_, rfl⟩
    unfold PmmOp.Allowed
    decide
  have hsound := owned_run_sound smallAllocator_wellFormed
    (fun b hb => absurd hb (Finset.notMem_empty b)) hrun
  have haddr : (s.exec (.allocPages 2)).1 = 0x5000 := by decide
  have hfresh := hsound.2.2 (.allocPages 2) trivial (by rw [haddr]; decide)
  rw [haddr] at hfresh
  exact ⟨hsound.1, haddr, hfresh⟩

end Frostix.Pmm
