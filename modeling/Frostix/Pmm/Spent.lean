import Frostix.Lib.Lowest
import Frostix.Pmm.FirstFit

/-!
The page allocator as a supply of pages, the lowest one first. -/
namespace Frostix.Pmm
open Lowest RunSearch

/-- From `p` to `q` the `s` lowest free pages were taken. -/
structure Spent (p q : BitmapAllocator) (s : Nat) : Prop where
  without : Without (Free p) (Free q) s
  freePages_eq : q.freePages + s = p.freePages

section Supply
variable {p q r : BitmapAllocator} {s t b : Nat}

theorem Spent.refl (p : BitmapAllocator) : Spent p p 0 := ⟨Without.refl (Free p), rfl⟩

theorem Spent.trans (h : Spent p q s) (h' : Spent q r t) : Spent p r (s + t) := by
  have hp := h.freePages_eq
  have hq := h'.freePages_eq
  exact ⟨h.without.trans h'.without, by omega⟩

theorem WellFormed.exists_free_iff (h : WellFormed p) : (∃ b, Free p b) ↔ 0 < p.freePages := by
  rw [h.free_count, Finset.card_pos]
  exact exists_congr fun b => mem_freeSet.symm

theorem WellFormed.free_nth (h : WellFormed p) (hs : s < p.freePages) : Free p (Nat.nth (Free p) s) := by
  refine Nat.nth_mem s fun hf => ?_
  rwa [show hf.toFinset = freeSet p by ext b; simp, ← h.free_count]

theorem Spent.next (h : Spent p q s) (hq : WellFormed q) (hpos : 0 < q.freePages) :
    Nat.nth (Free q) 0 = Nat.nth (Free p) s := h.without.nth_zero (hq.exists_free_iff.mpr hpos)

theorem Taken.spent (h : Taken p q b 1) (hleast : ∀ c < b, ¬ Free p c) :
    Spent p q 1 ∧ b = Nat.nth (Free p) 0 := by
  have hb : Free p b := h.was_free 0 one_pos
  have hzero : Nat.count (Free p) b = 0 := Nat.count_iff_forall_not.mpr hleast
  refine ⟨⟨Without.of_least hb hleast fun c => ?_, h.freePages_eq⟩, ?_⟩
  · rw [h.free_iff]
    exact and_congr_right fun _ => by omega
  · rw [← hzero, Nat.nth_count hb]

theorem WellFormed.firstFit (h : WellFormed p) {count : Nat} (hpos : 0 < count) (hcount : count < 2 ^ 32) :
    FirstFit p count := by
  have htotal := h.total_le
  have hle := h.freePages_le
  have hused := h.used_eq
  refine .of_fits h.zero_set h.free_count (by omega) hpos hcount (fun s hlow => ?_) fun b hb _ => ?_
  · have hlast := h.free_bounds (hlow.run (count - 1) (by omega))
    have hroom := card_ge_of_run h.free_count hlow.run
    exact ⟨by omega, by omega, by omega⟩
  · have hbounds := h.free_bounds hb
    exact Or.inl (by omega)

theorem IsRun.one_iff {P : Nat → Prop} : IsRun P 1 b ↔ P b := by
  refine ⟨fun hrun => hrun 0 one_pos, fun hb i hi => ?_⟩
  rwa [Nat.lt_one_iff.mp hi]

/-- `pmm_alloc_page` takes the lowest page that is free. -/
theorem pmmAllocPage_spent (h : WellFormed p) :
    (pmmAllocPage p = (0, p) ∧ p.freePages = 0) ∨
      ∃ q, pmmAllocPage p = (Nat.nth (Free p) 0 * 4096, q) ∧ Taken p q (Nat.nth (Free p) 0) 1 ∧
        WellFormed q ∧ Spent p q 1 := by
  rw [(h.firstFit one_pos (by decide)).single]
  rcases pmmAllocPages_spec h 1 with ⟨hrun, hnone⟩ | ⟨b, q, hrun, -, hlow, ht, hq⟩
  · refine Or.inl ⟨hrun, ?_⟩
    by_contra hsome
    obtain ⟨b, hb⟩ := h.exists_free_iff.mpr (Nat.pos_of_ne_zero hsome)
    exact hnone one_pos b (IsRun.one_iff.mpr hb)
  · obtain ⟨hspent, hb⟩ := ht.spent fun c hc hfree => hlow.lowest c hc (IsRun.one_iff.mpr hfree)
    rw [← hb]
    exact Or.inr ⟨q, hrun, ht, hq, hspent⟩

end Supply

end Frostix.Pmm
