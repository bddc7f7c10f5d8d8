import Frostix.Services.Growth
import Frostix.Vma.Foreign

/-!
The frames of immediate mappings. `munmap_range` and `mm_destroy` unmap pages and give no
frame back, and the rollback gives back only the frame of the page that failed. So a frame
stays accounted for only while its page stays mapped in an area of the list. -/
namespace Frostix.Vma
open Machine32 LinkedStore Pmm Vmm Heap Services

/-- Every frame that was taken for the address space and not given back is mapped in one of its
areas, and none is free while a page is mapped to it. -/
def Accounted (s : Space) : Prop :=
  (∀ f ∈ s.mm.env.handed, ∃ va, s.mm.Contains va ∧ s.mm.env.machine.tr (va / 4096) = some f) ∧
    ∀ q ∈ s.own, ∀ f, s.mm.env.machine.tr q = some f → ¬ Free s.mm.env.machine.pmm f

/-- Behind the pages of `H` the `n` pages from `lo` on can all be mapped, or not even the first one;
or `H` itself cannot. -/
def AllOrNothing (m : Machine) (H : Finset Nat) (lo n : Nat) : Prop :=
  (∃ q ∈ H, Refused m ∅ q) ∨ Refused m H lo ∨
    ∀ j < n, ¬ Refused m (H ∪ Finset.Ico lo (lo + j)) (lo + j)

/-- The call loses no area with own pages, does not roll pages back and unmaps none of them. -/
def MmOp.Thrifty (mm : Mm Kernel) (own : Set Nat) : MmOp → Prop
  | .mmap addr len flags => (MmapSafe mm addr len ∨ own = ∅) ∧
      (immediate flags = true → ∀ start stop, placeArea mm addr len = some (.ok (start, stop)) →
        ∃ bs, Good mm.env.heap.heap bs ∧ AllOrNothing mm.env.machine (growth mm.env.heap.heap bs sizeofArea)
          (start / 4096) ((stop - start) / 4096))
  | .munmap addr len => len ≠ 0 →
      (∀ va, va % 4096 = 0 → alignDown addr 4096 ≤ va → va < alignUp (wrap (addr + len)) 4096 →
        mm.Contains va → ∀ q ∈ insert windowPage own, ¬ Touches (va / 4096) q) ∧
      (MunmapSafe mm addr len ∨ ∀ q ∈ own, alignDown addr 4096 ≤ q * 4096)

section Areas

variable {σ : Type} {mm : Mm σ} {lost : Nat} {cs : List (Nat × Region)}

theorem Linked.reaches (h : Linked lost mm cs) {v : Nat} (hv : mm.Reaches v) :
    ∃ xs c ys, cs = xs ++ c :: ys ∧ c.1 = v := by
  induction hv with
  | head hne =>
      cases cs with
      | nil => exact absurd h.head hne
      | cons c ys => exact ⟨[], c, ys, rfl, h.head.symm⟩
  | next v a _ ha hne ih =>
      obtain ⟨xs, c, ys, rfl, rfl⟩ := ih
      obtain ⟨-, -, hval, -⟩ := Seg.append.mp h.seg
      cases ha.symm.trans hval
      cases ys with
      | nil => exact absurd rfl hne
      | cons d ds => exact ⟨xs ++ [c], d, ds, by simp, rfl⟩

theorem Linked.contains_iff (h : Linked lost mm cs) {va : Nat} : mm.Contains va ↔ InAreas cs va := by
  refine ⟨?_, h.contains⟩
  rintro ⟨v, a, hv, ha, hlo, hhi⟩
  obtain ⟨xs, c, ys, rfl, rfl⟩ := h.reaches hv
  obtain ⟨-, -, hval, -⟩ := Seg.append.mp h.seg
  cases ha.symm.trans hval
  exact ⟨c, by simp, hlo, hhi⟩

theorem not_contains_of_dangling (hnone : mm.areas mm.mmap = none) {va : Nat} : ¬ mm.Contains va := by
  have hhead : ∀ v, mm.Reaches v → v = mm.mmap := by
    intro v hv
    induction hv with
    | head _ => rfl
    | next v a _ ha _ ih =>
        rw [ih, hnone] at ha
        cases ha
  rintro ⟨v, a, hv, ha, -⟩
  rw [hhead v hv, hnone] at ha
  cases ha

theorem Shape.contains_setEnv (h : Shape mm) {va : Nat} (hin : mm.Contains va) (s : σ) :
    Mm.Contains { mm with env := s } va := by
  cases h with
  | linked lost cs hl => exact (hl.setEnv s).contains (hl.contains_iff.mp hin)
  | dangling hne hnone => exact absurd hin (not_contains_of_dangling hnone)

theorem Trimmed.keeps_behind {stop : Nat} {ps qs rest cs' : List (Nat × Region)} {st : KernelStatus}
    (h : Trimmed stop ps qs rest st cs') {x : Nat} (hx : InAreas rest x) (hstop : stop ≤ x) : InAreas cs' x := by
  induction h with
  | nil qs => exact absurd hx (by simp [InAreas])
  | behind qs c rest _ => exact InAreas.append.mpr (Or.inr hx)
  | failed qs c rest _ _ => exact InAreas.append.mpr (Or.inr hx)
  | split qs c rest u _ _ =>
      refine InAreas.append.mpr (Or.inr ?_)
      rcases InAreas.cons.mp hx with hin | hin
      · exact InAreas.cons.mpr (Or.inl ⟨hstop, hin.2⟩)
      · exact InAreas.cons.mpr (Or.inr hin)
  | drop qs c rest cs' st hend _ ih =>
      rcases InAreas.cons.mp hx with hin | hin
      · exact absurd hin.2 (not_lt.mpr (le_trans hend hstop))
      · exact ih hin

theorem Removed.keeps_behind {first : Nat → Prop} {start stop : Nat} {cs' : List (Nat × Region)}
    {st : KernelStatus} (h : Removed first start stop cs st cs') {x : Nat} (hx : InAreas cs x)
    (hstart : start ≤ x)
    (hstop : stop ≤ x) : InAreas cs' x := by
  have hbefore : ∀ xs : List (Nat × Region), (∀ c ∈ xs, c.2.stop ≤ start) → ¬ InAreas xs x := by
    rintro xs hxs ⟨c, hc, -, hlt⟩
    exact absurd (lt_of_lt_of_le hlt (hxs c hc)) (not_lt.mpr hstart)
  cases h with
  | none _ _ => exact hx
  | failed _ _ _ _ _ _ _ => exact hx
  | cut xs c ys u st cs' hxs _ _ htrim =>
      refine htrim.keeps_behind ?_ hstop
      rcases InAreas.cons.mp ((InAreas.append.mp hx).resolve_left (hbefore xs hxs)) with hin | hin
      · exact InAreas.cons.mpr (Or.inl ⟨hstart, hin.2⟩)
      · exact InAreas.cons.mpr (Or.inr hin)
  | whole xs c ys st cs' hxs _ _ htrim =>
      exact htrim.keeps_behind ((InAreas.append.mp hx).resolve_left (hbefore xs hxs)) hstop

theorem munmapRange_outside {ops : MmOps σ} {I : Set Nat → σ → Prop} (hops : Allocator ops I)
    (hl : Linked lost mm cs) (hown : Owns I mm) {addr len : Nat} (hlen : len ≠ 0)
    (hun : Unmaps ops I fun va => va % 4096 = 0 ∧ alignDown addr 4096 ≤ va ∧
      va < alignUp (wrap (addr + len)) 4096 ∧ InAreas cs va) {st : KernelStatus} {mm' : Mm σ}
    (hrun : munmapRange ops mm addr len = some (st, mm')) :
    ∃ lost' cs', Linked lost' mm' cs' ∧ Owns I mm' ∧ ∀ x, InAreas cs x →
      MunmapSafe mm addr len ∨ alignDown addr 4096 ≤ x →
      ¬ (alignDown addr 4096 ≤ x ∧ x < alignUp (wrap (addr + len)) 4096) → InAreas cs' x := by
  by_cases hsafe : MunmapSafe mm addr len
  · obtain ⟨st', mm'', cs', hrun', hl', hown', -, hcut⟩ := munmapRange_spec hops hl hown hsafe hun
    cases hrun.symm.trans hrun'
    exact ⟨lost, cs', hl', hown', fun x hx _ hout => hcut.outside x hx (by omega)⟩
  · obtain ⟨st', mm'', cs', lost', U', hrun', hremoved, hleft, -⟩ := munmapRange_removes
      (Unmapping.of_allocator hops hun mm.self) hl hown rfl hlen fun va h1 h2 h3 h4 => ⟨h1, h2, h3, h4⟩
    cases hrun.symm.trans hrun'
    refine ⟨lost', cs', hleft.linked, hleft.owns, fun x hx hcase hout => ?_⟩
    have hstart := hcase.resolve_left hsafe
    exact hremoved.keeps_behind hx hstart (by omega)

end Areas

section Loop

/-- `pmm_alloc_page` hands out the lowest page that is free. -/
theorem allocPage_spent {k : Kernel} (h : WellFormed k.machine.pmm) :
    (k.allocPage = (0, k) ∧ k.machine.pmm.freePages = 0) ∨
      ∃ q, k.allocPage = (Nat.nth (Free k.machine.pmm) 0 * 4096,
          withPages k { k.machine with pmm := q } (Nat.nth (Free k.machine.pmm) 0 :: k.handed)) ∧
        Taken k.machine.pmm q (Nat.nth (Free k.machine.pmm) 0) 1 ∧ WellFormed q ∧ Spent k.machine.pmm q 1 := by
  unfold Kernel.allocPage
  rcases pmmAllocPage_spent h with ⟨hrun, hzero⟩ | ⟨q, hrun, ht, hq, hspent⟩
  · rw [hrun]
    exact Or.inl ⟨rfl, hzero⟩
  · have hpos := ht.pos
    refine Or.inr ⟨q, ?_, ht, hq, hspent⟩
    rw [hrun]
    simp only [if_neg (by omega : ¬ Nat.nth (Free k.machine.pmm) 0 * 4096 = 0),
      Nat.mul_div_cancel _ (by decide : 0 < 4096)]
    rfl

/-- One page of the loop: it is refused and its frame given back, or it is mapped. -/
theorem mapImmediate_next {k : Kernel} (h : Booted k.machine) {start i : Nat} (hv : start + i * 4096 < 2 ^ 32)
    (left : Nat) :
    (Refused k.machine ∅ ((start + i * 4096) / 4096) ∧ ∃ st k', st ≠ .ok ∧ k'.handed = k.handed ∧
      mapImmediate kernelOps start (left + 1) i k = (do
        let env ← unmapPages kernelOps start i k'
        some (st, env))) ∨
      ∃ m' f, ¬ Refused k.machine ∅ ((start + i * 4096) / 4096) ∧
        Supplied k.machine m' {(start + i * 4096) / 4096} ∧ mapImmediate kernelOps start (left + 1) i k =
          mapImmediate kernelOps start left (i + 1) (withPages k m' (f :: k.handed)) := by
  rw [mapImmediate, wrap_of_lt hv, show kernelOps.pmmAllocPage = Kernel.allocPage from rfl]
  rcases allocPage_spent h.pmm with ⟨halloc, hzero⟩ | ⟨q, halloc, ht, hq, hspent⟩
  · rw [halloc]
    refine Or.inl ⟨Or.inr (Or.inr (Or.inr ?_)), .outOfMemory, k, by decide, rfl, rfl⟩
    rw [insert_empty_eq, framesFor_singleton]
    omega
  have hpos := ht.pos
  have hmap := @vmmMapPage_supply _ _ (pageFlagPresent + pageFlagRw) h q ht hq hspent hv (by decide)
  generalize Nat.nth (Free k.machine.pmm) 0 = f at *
  rw [halloc]
  simp only [if_neg (by omega : ¬ f * 4096 = 0)]
  rcases hmap with ⟨st, hst, hrun, hrefused⟩ | ⟨m', hrun, hnot, hsupply⟩
  · refine Or.inl ⟨hrefused, st, (withPages k { k.machine with pmm := q } (f :: k.handed)).freePage (f * 4096),
      hst, ?_, ?_⟩
    · change (f :: k.handed).erase (f * 4096 / 4096) = k.handed
      rw [Nat.mul_div_cancel f (by decide), List.erase_cons_head]
    · change ((vmmMapPage { k.machine with pmm := q } (start + i * 4096) (f * 4096)
        (pageFlagPresent + pageFlagRw)).map _ >>= _) = _
      rw [hrun]
      simp only [Option.map_some, Option.bind_eq_bind, Option.bind_some, if_pos hst]
      rfl
  · refine Or.inr ⟨m', f, hnot, hsupply, ?_⟩
    change ((vmmMapPage { k.machine with pmm := q } (start + i * 4096) (f * 4096)
      (pageFlagPresent + pageFlagRw)).map _ >>= _) = _
    rw [hrun]
    rfl

/-- When no page will be refused, the loop maps them all. -/
theorem mapImmediate_all {k : Kernel} {m₀ : Machine} (h₀ : Booted m₀) {H : Finset Nat} {lo n : Nat}
    (hH : ∀ q ∈ H, q < windowPage) (hlast : lo + n < pageLimit)
    (hall : ∀ j < n, ¬ Refused m₀ (H ∪ Finset.Ico lo (lo + j)) (lo + j)) (left : Nat) :
    ∀ (i : Nat) (m : Machine) (handed : List Nat), i + left = n → Supplied m₀ m (H ∪ Finset.Ico lo (lo + i)) →
      ∃ k', mapImmediate kernelOps (lo * 4096) left i (withPages k m handed) = some (.ok, k') := by
  induction left with
  | zero => exact fun i m handed _ _ => ⟨_, rfl⟩
  | succ left ih =>
      intro i m handed hi hsupply
      have hnot := hall i (by omega)
      have hlimit : windowPage < pageLimit := by decide
      have hdiv : (lo * 4096 + i * 4096) / 4096 = lo + i := by omega
      have hmem : ∀ q ∈ H ∪ Finset.Ico lo (lo + i), q < windowPage ∨ lo ≤ q ∧ q < lo + i := by
        intro q hq
        exact (Finset.mem_union.mp hq).imp (hH q) Finset.mem_Ico.mp
      have hpages : ∀ q ∈ H ∪ Finset.Ico lo (lo + i), q < pageLimit := by
        intro q hq
        have := hmem q hq
        omega
      have hside : lo + i < windowPage → ∀ q ∈ H ∪ Finset.Ico lo (lo + i), q < windowPage := by
        intro hlt q hq
        have := hmem q hq
        omega
      have hnew : lo + i ∉ H ∪ Finset.Ico lo (lo + i) := fun hin => hnot (Or.inr (Or.inl hin))
      have hstep := @mapImmediate_next (withPages k m handed) (hsupply.quiet.booted h₀) (lo * 4096) i
        (by unfold pageLimit at hlast; omega) left
      rw [hdiv] at hstep
      rcases hstep with ⟨hrefused, -⟩ | ⟨m', f, -, hone, hrun⟩
      · exact absurd ((hsupply.refused_iff h₀.toSound (by omega) hside).mp hrefused) hnot
      · have hnext := hsupply.snoc h₀.toSound hone (by omega) hpages hside hnew
        rw [← Finset.union_insert, ← Nat.Ico_succ_right_eq_insert_Ico (Nat.le_add_right lo i)] at hnext
        rw [hrun]
        exact ih (i + 1) m' (f :: handed) (by omega) hnext

/-- A loop that fails at the first page, or at none, leaves no frame to roll back. -/
theorem mapImmediate_handed {k k' : Kernel} {m₀ : Machine} (h₀ : Booted m₀) {H : Finset Nat} {lo n : Nat}
    (hH : ∀ q ∈ H, q < windowPage) (hpos : n ≠ 0) (hlast : lo + n < pageLimit) (hsupply : Supplied m₀ k.machine H)
    (hall : Refused m₀ H lo ∨ ∀ j < n, ¬ Refused m₀ (H ∪ Finset.Ico lo (lo + j)) (lo + j)) {st : KernelStatus}
    (hst : st ≠ .ok) (hrun : mapImmediate kernelOps (lo * 4096) n 0 k = some (st, k')) :
    k'.handed = k.handed := by
  rcases hall with hfirst | hnone
  · have hrefused := (hsupply.refused_iff h₀.toSound (by omega) fun _ => hH).mpr hfirst
    obtain ⟨left, rfl⟩ := Nat.exists_eq_succ_of_ne_zero hpos
    have hstep := @mapImmediate_next k (hsupply.quiet.booted h₀) (lo * 4096) 0
      (by unfold pageLimit at hlast; omega) left
    rw [Nat.zero_mul, Nat.add_zero, Nat.mul_div_cancel lo (by decide)] at hstep
    rcases hstep with ⟨-, st₁, k₁, -, hhanded, hloop⟩ | ⟨m', f, hnot, -⟩
    · cases hrun.symm.trans hloop
      exact hhanded
    · exact absurd hrefused hnot
  · obtain ⟨k₁, hloop⟩ := mapImmediate_all h₀ hH hlast hnone n 0 k.machine k.handed (Nat.zero_add n)
      (by simpa using hsupply)
    cases hrun.symm.trans hloop
    exact absurd rfl hst

end Loop

/-- The run invariant: own pages are in areas and mapped to the frames that were taken. -/
structure FramesOk (s : Space) : Prop where
  shape : Shape s.mm
  owns : Owns Settled s.mm
  placed : ∀ q ∈ s.own, s.mm.Contains (q * 4096)
  backed : ∀ q ∈ s.own, ∃ f ∈ s.mm.env.handed, s.mm.env.machine.tr q = some f
  used : ∀ f ∈ s.mm.env.handed, ¬ Free s.mm.env.machine.pmm f
  mapped : ∀ f ∈ s.mm.env.handed, ∃ q ∈ s.own, s.mm.env.machine.tr q = some f

theorem FramesOk.accounted {s : Space} (h : FramesOk s) : Accounted s := by
  constructor
  · intro f hf
    obtain ⟨q, hq, htr⟩ := h.mapped f hf
    refine ⟨q * 4096, h.placed q hq, ?_⟩
    rwa [Nat.mul_div_cancel q (by decide)]
  · intro q hq f hf
    obtain ⟨g, hg, htr⟩ := h.backed q hq
    cases hf.symm.trans htr
    exact h.used f hg

/-- In the middle of a call: the own pages and the first page of the window are where they
were, and the record of the frames meets `R`. -/
def Holding (s : Space) (R : List Nat → Prop) : Set Nat → Kernel → Prop :=
  KernelOk (During (insert windowPage s.own) s.mm.env.machine s.mm.env.heap.heap.currentEnd) R

section Calls

variable {s : Space} {mm' : Mm Kernel}

theorem FramesOk.tr_lt (h : FramesOk s) {q : Nat} (hq : q ∈ s.own) : q < pageLimit := by
  cases h.shape with
  | dangling _ hnone => exact absurd (h.placed q hq) (not_contains_of_dangling hnone)
  | linked lost cs hl =>
      have hlt := hl.page_below (Nat.mul_mod_left _ _) (hl.contains_iff.mp (h.placed q hq))
      unfold pageLimit
      omega

theorem FramesOk.holding (h : FramesOk s) : Owns (Holding s (· = s.mm.env.handed)) s.mm :=
  ⟨h.owns.self_apart, h.owns.ok.integrity, During.start _ h.owns.ok.ok, h.owns.ok.live, rfl⟩

theorem FramesOk.firm (h : FramesOk s) :
    ∀ q ∈ insert windowPage s.own, ∀ f, s.mm.env.machine.tr q = some f → ¬ Free s.mm.env.machine.pmm f := by
  have hbooted := h.owns.ok.ok.booted
  rintro q (rfl | hq) f hf
  · rw [hbooted.tr_window le_rfl (by decide)] at hf
    exact (testBit_iff.mp (hbooted.tables.marked 0 (by decide) f hf)).2
  · obtain ⟨g, hg, htr⟩ := h.backed q hq
    cases hf.symm.trans htr
    exact h.used f hg

theorem FramesOk.allocator (h : FramesOk s) (R : List Nat → Prop) : Allocator kernelOps (Holding s R) :=
  kernelOps_allocator (during_grows fun q hq _ _ => h.firm q hq)

theorem Holding.settled {R : List Nat → Prop} {A : Set Nat} {k : Kernel} (h : Holding s R A k) : Settled A k :=
  settled_of_during ⟨h.integrity, h.ok, h.live, trivial⟩

theorem FramesOk.own_tr (h : FramesOk s) {R : List Nat → Prop} {A : Set Nat} {k : Kernel} (hk : Holding s R A k)
    {q : Nat} (hq : q ∈ s.own) : k.machine.tr q = s.mm.env.machine.tr q := by
  obtain ⟨f, -, htr⟩ := h.backed q hq
  rw [htr]
  exact hk.ok.spared.tr q (Set.mem_insert_of_mem _ hq) (h.tr_lt hq) f htr

/-- A call that takes the frames `taken` for the pages of `made` and keeps the own pages in areas. -/
theorem FramesOk.after (h : FramesOk s) {made : Set Nat} {taken : List Nat} (hshape : Shape mm')
    (howns : Owns (Holding s (· = taken ++ s.mm.env.handed)) mm')
    (hplaced : ∀ q, q ∈ s.own ∨ q ∈ made → mm'.Contains (q * 4096))
    (hmade : ∀ q ∈ made, ∃ f ∈ taken, mm'.env.machine.tr q = some f)
    (htaken : ∀ f ∈ taken, ¬ Free mm'.env.machine.pmm f ∧ ∃ q ∈ made, mm'.env.machine.tr q = some f) :
    FramesOk (s.after mm' made) := by
  have hhanded : mm'.env.handed = taken ++ s.mm.env.handed := howns.ok.handed
  have hold : ∀ q ∈ s.own, mm'.env.machine.tr q = s.mm.env.machine.tr q := fun q hq => h.own_tr howns.ok hq
  refine ⟨hshape, howns.imp fun _ _ => Holding.settled, ?_, ?_, ?_, ?_⟩
  · rintro q (⟨hq, -⟩ | hq)
    · exact hplaced q (Or.inl hq)
    · exact hplaced q (Or.inr hq)
  · change ∀ q ∈ (s.after mm' made).own, ∃ f ∈ mm'.env.handed, mm'.env.machine.tr q = some f
    rw [hhanded]
    rintro q (⟨hq, -⟩ | hq)
    · obtain ⟨f, hf, htr⟩ := h.backed q hq
      exact ⟨f, List.mem_append_right _ hf, (hold q hq).trans htr⟩
    · obtain ⟨f, hf, htr⟩ := hmade q hq
      exact ⟨f, List.mem_append_left _ hf, htr⟩
  · change ∀ f ∈ mm'.env.handed, ¬ Free mm'.env.machine.pmm f
    rw [hhanded]
    intro f hf hfree
    rcases List.mem_append.mp hf with hf | hf
    · exact (htaken f hf).1 hfree
    · exact h.used f hf (howns.ok.ok.spared.free f hfree)
  · change ∀ f ∈ mm'.env.handed, ∃ q ∈ (s.after mm' made).own, mm'.env.machine.tr q = some f
    rw [hhanded]
    intro f hf
    rcases List.mem_append.mp hf with hf | hf
    · obtain ⟨-, q, hq, htr⟩ := htaken f hf
      exact ⟨q, Or.inr hq, htr⟩
    · obtain ⟨q, hq, htr⟩ := h.mapped f hf
      exact ⟨q, Or.inl ⟨hq, hold q hq⟩, (hold q hq).trans htr⟩

theorem FramesOk.kept (h : FramesOk s) (hshape : Shape mm') (howns : Owns (Holding s (· = s.mm.env.handed)) mm')
    (hplaced : ∀ q ∈ s.own, mm'.Contains (q * 4096)) : FramesOk (s.after mm' ∅) := by
  refine @FramesOk.after _ _ h ∅ [] hshape howns ?_ ?_ ?_
  · rintro q (hq | hq)
    · exact hplaced q hq
    · exact absurd hq (Set.notMem_empty q)
  · exact fun q hq => absurd hq (Set.notMem_empty q)
  · exact fun f hf => absurd hf List.not_mem_nil

theorem FramesOk.munmap (h : FramesOk s) {addr len : Nat} (hop : MmOp.Thrifty s.mm s.own (.munmap addr len))
    {st : KernelStatus} (hrun : munmapRange kernelOps s.mm addr len = some (st, mm')) :
    FramesOk (s.after mm' ∅) := by
  by_cases hlen : len = 0
  · rw [munmapRange, if_pos hlen] at hrun
    cases hrun
    exact h.kept h.shape h.holding h.placed
  obtain ⟨hrange, hlist⟩ := hop hlen
  cases h.shape with
  | dangling hne hnone =>
      rw [munmapRange_dangling hne hnone hlen] at hrun
      cases hrun
  | linked lost cs hl =>
      have hun : Unmaps kernelOps (Holding s (· = s.mm.env.handed)) fun va => va % 4096 = 0 ∧
          alignDown addr 4096 ≤ va ∧ va < alignUp (wrap (addr + len)) 4096 ∧ InAreas cs va := by
        refine during_unmaps h.owns.ok.ok.booted (Set.mem_insert _ _)
          (fun va hva => hl.page_below hva.1 hva.2.2.2) ?_
        rintro va ⟨h1, h2, h3, h4⟩ q hq - htouch
        exact absurd htouch (hrange va h1 h2 h3 (hl.contains h4) q hq)
      obtain ⟨lost', cs', hl', howns, hkeeps⟩ := munmapRange_outside (h.allocator _) hl h.holding hlen hun hrun
      refine h.kept (.linked lost' cs' hl') howns fun q hq => hl'.contains ?_
      refine hkeeps _ (hl.contains_iff.mp (h.placed q hq)) (hlist.imp id fun hbehind => hbehind q hq) ?_
      rintro ⟨hlo, hhi⟩
      refine hrange _ (Nat.mul_mod_left q 4096) hlo hhi (h.placed q hq) q (Set.mem_insert_of_mem _ hq) (Or.inl ?_)
      exact (Nat.mul_div_cancel q (by decide)).symm

/-- What an immediate mapping leaves: its pages are mapped to frames that were just taken. -/
def Taking (s : Space) (addr len : Nat) (A : Set Nat) (k : Kernel) : Prop :=
  ∃ start stop g, placeArea s.mm addr len = some (.ok (start, stop)) ∧ start % 4096 = 0 ∧ stop % 4096 = 0 ∧
    Holding s (· = frames g ((stop - start) / 4096) ++ s.mm.env.handed) A k ∧
    ∀ j < (stop - start) / 4096, k.machine.tr (start / 4096 + j) = some (g j) ∧ ¬ Free k.machine.pmm (g j)

/-- The loop: all pages, or nothing that has to be rolled back. -/
theorem FramesOk.maps (h : FramesOk s) {addr len start stop : Nat}
    (hplace : placeArea s.mm addr len = some (.ok (start, stop))) (hs1 : start % 4096 = 0) (hs2 : stop % 4096 = 0)
    (hlt : start < stop) (hmax : stop < 2 ^ 32) {bs : List Block} (hgood : Good s.mm.env.heap.heap bs)
    (hall : AllOrNothing s.mm.env.machine (growth s.mm.env.heap.heap bs sizeofArea) (start / 4096)
      ((stop - start) / 4096)) :
    MapsImmediate kernelOps (fun A k => Holding s (· = s.mm.env.handed) A k ∧
        ∃ v, v ≠ 0 ∧ kernelOps.kmalloc s.mm.env sizeofArea = some (v, k))
      (Taking s addr len) (Holding s (· = s.mm.env.handed)) start stop := by
  rintro A k ⟨hk, v, hv, hmalloc⟩
  obtain ⟨st, k', hrun, hfilled, -⟩ := @mapImmediate_grown A k start stop ⟨hk.ok.spared.booted, fun _ hf => hf⟩
    hs1 hlt hmax
  have hkept : ∀ R : List Nat → Prop, R k'.handed → Holding s R A k' := by
    intro R hR
    obtain ⟨m', handed, rfl, hq⟩ := hfilled.quiet
    exact ⟨integrity_setMachine hk.integrity m', ⟨hk.ok.spared.quiet hq fun q hq _ => h.firm q hq, hk.ok.aligned,
      hk.ok.grown, hk.ok.below⟩, hk.live, hR⟩
  refine ⟨st, k', hrun, fun hst => ?_, fun hst => ?_⟩
  · cases hfilled with
    | failed _ _ _ hne => exact absurd hst hne
    | done m' g _ hk' hlaid =>
        have hhanded : k'.handed = frames g ((stop - start) / 4096) ++ s.mm.env.handed := by
          rw [hk', ← hk.handed]
          rfl
        refine ⟨start, stop, g, hplace, hs1, hs2, hkept _ hhanded, fun j hj => ?_⟩
        rw [hk']
        exact ⟨hlaid.done j hj, (hlaid.fresh j hj).2⟩
  · have hsteady := h.owns.ok.ok
    obtain ⟨hhad, hsupply⟩ := kmalloc_supply (by decide) (by decide) steady_grows hgood hsteady hsteady.booted
      hsteady.below hmalloc hv
    have hH := growth_below hsteady.booted hsteady.below hhad
    have hlast : start / 4096 + (stop - start) / 4096 < pageLimit := by
      unfold pageLimit
      omega
    have hpage : start / 4096 * 4096 = start := Nat.div_mul_cancel (Nat.dvd_of_mod_eq_zero hs1)
    rcases hall with ⟨q, hq, hrefused⟩ | hpages
    · exact absurd hrefused (hhad q hq)
    · have hhanded := @mapImmediate_handed k k' _ hsteady.booted _ _ _ hH (by omega) hlast hsupply hpages st hst
        (by rwa [hpage])
      exact hkept _ (hhanded.trans hk.handed)

theorem mem_frames {g : Nat → Nat} {n f : Nat} : f ∈ frames g n ↔ ∃ j < n, g j = f := by
  simp [frames]

theorem MmOp.range_eq_empty {mm : Mm Kernel} {st : KernelStatus} {addr len flags : Nat}
    (h : ¬ (st = .ok ∧ immediate flags = true)) : (MmOp.mmap addr len flags).range mm st = ∅ :=
  Set.eq_empty_of_forall_notMem fun _ hq => h ⟨hq.1, hq.2.1⟩

theorem MmOp.mem_range {mm : Mm Kernel} {addr len flags start stop : Nat} (hflag : immediate flags = true)
    (hplace : placeArea mm addr len = some (.ok (start, stop))) (hs1 : start % 4096 = 0) (hs2 : stop % 4096 = 0)
    {q : Nat} : q ∈ (MmOp.mmap addr len flags).range mm .ok ↔
      ∃ j < (stop - start) / 4096, q = start / 4096 + j := by
  constructor
  · rintro ⟨-, -, start', stop', hplace', hlo, hhi⟩
    cases hplace.symm.trans hplace'
    exact ⟨q - start / 4096, by omega, by omega⟩
  · rintro ⟨j, hj, rfl⟩
    exact ⟨rfl, hflag, start, stop, hplace, by omega, by omega⟩

theorem FramesOk.mmap (h : FramesOk s) {addr len flags : Nat}
    (hop : MmOp.Thrifty s.mm s.own (.mmap addr len flags)) {st : KernelStatus} {out : Nat}
    (hrun : mmapAnonymous kernelOps s.mm addr len flags = some ((st, out), mm')) :
    FramesOk (s.after mm' ((MmOp.mmap addr len flags).range s.mm st)) := by
  obtain ⟨hlist, hall⟩ := hop
  have hops := h.allocator (· = s.mm.env.handed)
  have hrefused : st ≠ .ok → (MmOp.mmap addr len flags).range s.mm st = ∅ := fun hst =>
    MmOp.range_eq_empty fun hok => hst hok.1
  cases hshape : h.shape with
  | dangling hne hnone =>
      obtain ⟨hst, hshape', howns⟩ := mmapAnonymous_dangling hops hne hnone h.holding hrun
      rw [hrefused hst]
      exact h.kept hshape' howns fun q hq => absurd (h.placed q hq) (not_contains_of_dangling hnone)
  | linked lost cs hl =>
      by_cases hsafe : MmapSafe s.mm addr len
      · obtain ⟨st', out', mm'', hrun', -, hmapped⟩ := mmapAnonymous_spec hops hops.kfree hl h.holding hsafe
          flags (J := Taking s addr len) (fun start stop hplace hflag => by
            obtain ⟨bs, hgood, hpages⟩ := hall hflag start stop hplace
            rcases hl.placeArea_spec addr len with ⟨status, herror, -⟩ | ⟨a, b, hplace', hs1, hs2, hlt, hmax, -⟩
            · cases hplace.symm.trans herror
            · cases hplace.symm.trans hplace'
              exact h.maps hplace hs1 hs2 hlt hmax hgood hpages)
        cases hrun.symm.trans hrun'
        cases hmapped with
        | refused hst hl' howns =>
            rw [hrefused hst]
            exact h.kept (.linked lost cs hl') howns fun q hq =>
              hl'.contains (hl.contains_iff.mp (h.placed q hq))
        | failed start stop hst _ _ hl' howns =>
            rw [hrefused hst]
            exact h.kept (.linked lost cs hl') howns fun q hq =>
              hl'.contains (hl.contains_iff.mp (h.placed q hq))
        | done start stop v r xs ys hst hplace hstart hstop hcs hl' himmediate hlazy =>
            have hplaced : ∀ q ∈ s.own, mm'.Contains (q * 4096) := by
              intro q hq
              have hin := hl.contains_iff.mp (h.placed q hq)
              rw [hcs, InAreas.append] at hin
              exact hl'.contains (InAreas.append.mpr (hin.imp_right fun hys => InAreas.cons.mpr (Or.inr hys)))
            cases hflag : immediate flags with
            | false =>
                rw [MmOp.range_eq_empty fun hok => by simp [hflag] at hok]
                exact h.kept (.linked lost _ hl') (hlazy hflag) hplaced
            | true =>
                obtain ⟨hself, start', stop', g, hplace', hs1, hs2, hhold, hpages⟩ := himmediate hflag
                cases hplace.symm.trans hplace'
                cases hst
                refine @FramesOk.after _ _ h _ (frames g ((stop - start) / 4096)) (.linked lost _ hl')
                  ⟨hself, hhold⟩
                  ?_ ?_ ?_
                · rintro q (hq | hq)
                  · exact hplaced q hq
                  · obtain ⟨j, hj, rfl⟩ := (MmOp.mem_range hflag hplace hs1 hs2).mp hq
                    refine hl'.contains (InAreas.append.mpr (Or.inr (InAreas.cons.mpr (Or.inl ⟨?_, ?_⟩))))
                    · rw [hstart]
                      omega
                    · rw [hstop]
                      omega
                · intro q hq
                  obtain ⟨j, hj, rfl⟩ := (MmOp.mem_range hflag hplace hs1 hs2).mp hq
                  exact ⟨g j, mem_frames.mpr ⟨j, hj, rfl⟩, (hpages j hj).1⟩
                · intro f hf
                  obtain ⟨j, hj, rfl⟩ := mem_frames.mp hf
                  exact ⟨(hpages j hj).2, _, (MmOp.mem_range hflag hplace hs1 hs2).mpr ⟨j, hj, rfl⟩,
                    (hpages j hj).1⟩
      · have hempty := hlist.resolve_left hsafe
        obtain ⟨st', mm'', hrun', hst, hshape', howns⟩ := mmapAnonymous_below hops hl h.holding hsafe flags
        cases hrun.symm.trans hrun'
        rw [hrefused hst]
        exact h.kept hshape' howns fun q hq => absurd hq (hempty ▸ Set.notMem_empty q)

end Calls

/-- A call that meets `C`, or the rest of the kernel, which leaves the frames and the pages of
the address space alone. -/
inductive FrameStep (C : Mm Kernel → Set Nat → MmOp → Prop) (s : Space) : Option MmOp → Space → Prop
  | call (op : MmOp) (st : KernelStatus) (mm' : Mm Kernel) : C s.mm s.own op →
      op.exec kernelOps s.mm = some (st, mm') → FrameStep C s (some op) (s.after mm' (op.range s.mm st))
  | others (k' : Kernel) : Settled s.mm.structs k' → k'.handed = s.mm.env.handed →
      (∀ q ∈ s.own, k'.machine.tr q = s.mm.env.machine.tr q) →
      (∀ f ∈ s.mm.env.handed, ¬ Free k'.machine.pmm f) → FrameStep C s none (s.after { s.mm with env := k' } ∅)

theorem FramesOk.step {s s' : Space} {op : Option MmOp} (h : FramesOk s)
    (hstep : FrameStep MmOp.Thrifty s op s') : FramesOk s' := by
  cases hstep with
  | call op st mm' hop hrun =>
      cases op with
      | mmap addr len flags =>
          obtain ⟨⟨⟨st', out⟩, mm''⟩, hmap, heq⟩ := Option.map_eq_some_iff.mp hrun
          cases heq
          exact h.mmap hop hmap
      | munmap addr len => exact h.munmap hop hrun
  | others k' hk' hhanded htr hused =>
      refine ⟨h.shape.setEnv k', ⟨h.owns.self_apart, hk'⟩, ?_, ?_, ?_, ?_⟩
      · rintro q (⟨hq, -⟩ | hq)
        · exact h.shape.contains_setEnv (h.placed q hq) k'
        · exact absurd hq (Set.notMem_empty q)
      · change ∀ q ∈ (s.after { s.mm with env := k' } ∅).own, ∃ f ∈ k'.handed, k'.machine.tr q = some f
        rw [hhanded]
        rintro q (⟨hq, hsame⟩ | hq)
        · obtain ⟨f, hf, hfq⟩ := h.backed q hq
          exact ⟨f, hf, hsame.trans hfq⟩
        · exact absurd hq (Set.notMem_empty q)
      · change ∀ f ∈ k'.handed, ¬ Free k'.machine.pmm f
        rwa [hhanded]
      · change ∀ f ∈ k'.handed, ∃ q ∈ (s.after { s.mm with env := k' } ∅).own, k'.machine.tr q = some f
        rw [hhanded]
        intro f hf
        obtain ⟨q, hq, hfq⟩ := h.mapped f hf
        exact ⟨q, Or.inl ⟨hq, htr q hq⟩, (htr q hq).trans hfq⟩

theorem mmDestroy_handed {mm : Mm Kernel} {k' : Kernel} (hshape : Shape mm) (howns : Owns Settled mm)
    (hrun : mmDestroy kernelOps mm = some k') : k'.handed = mm.env.handed := by
  have hown : Owns (KernelOk (fun _ m => Sound m) (· = mm.env.handed)) mm :=
    ⟨howns.self_apart, howns.ok.integrity, howns.ok.ok.booted.toSound, howns.ok.live, rfl⟩
  have hun : Unmaps kernelOps (KernelOk (fun _ m => Sound m) (· = mm.env.handed)) fun va =>
      va % 4096 = 0 ∧ va + 4096 < 2 ^ 32 ∧ mm.Contains va := by
    refine kernelOps_unmaps ?_ (fun _ _ hm => hm) fun _ _ _ _ _ _ hc => hc.sound
    rintro va ⟨-, hlt, -⟩
    unfold pageLimit
    omega
  obtain ⟨A, hk'⟩ := hshape.mmDestroy kernelOps_frees hown hun hrun
  exact hk'.handed

/-- In every run of thrifty calls every frame is accounted for, and a destruction leaves none
behind if and only if the address space has no pages of its own. -/
theorem vma_run_accounts {k : Kernel} (hk : Settled ∅ k) (hnone : k.handed = []) {mm₀ : Mm Kernel}
    (hcreate : mmCreate kernelOps k = some mm₀) (hself : mm₀.self ≠ 0) {s : Space}
    (run : Transition.Run (FrameStep MmOp.Thrifty) ⟨mm₀, ∅⟩ s) :
    Accounted s ∧ ∀ k', mmDestroy kernelOps s.mm = some k' → (k'.handed = [] ↔ s.own = ∅) := by
  have hstart : FramesOk ⟨mm₀, ∅⟩ := by
    obtain ⟨hl, howns⟩ := created_owns (R := (· = [])) ⟨hk.integrity, hk.ok, hk.live, hnone⟩ hcreate hself
    have hhanded : mm₀.env.handed = [] := howns.ok.handed
    refine ⟨.linked 0 [] hl, ⟨howns.self_apart, howns.ok.integrity, howns.ok.ok, howns.ok.live, trivial⟩,
      fun q hq => absurd hq (Set.notMem_empty q), fun q hq => absurd hq (Set.notMem_empty q), ?_, ?_⟩
    · exact fun f hf => absurd (hhanded ▸ hf) List.not_mem_nil
    · exact fun f hf => absurd (hhanded ▸ hf) List.not_mem_nil
  have hok : FramesOk s := run.invariant (fun _ _ _ hstep h => h.step hstep) hstart
  refine ⟨hok.accounted, fun k' hrun => ?_⟩
  rw [mmDestroy_handed hok.shape hok.owns hrun]
  constructor
  · intro hempty
    refine Set.eq_empty_of_forall_notMem fun q hq => ?_
    obtain ⟨f, hf, -⟩ := hok.backed q hq
    exact absurd (hempty ▸ hf) List.not_mem_nil
  · intro hown
    refine List.eq_nil_iff_forall_not_mem.mpr fun f hf => ?_
    obtain ⟨q, hq, -⟩ := hok.mapped f hf
    exact absurd hq (hown ▸ Set.notMem_empty q)

theorem bootMachine_gives {h : KernelHeap Machine} {bs : List Block}
    (hstart : heapStart < h.currentEnd) {page : Nat}
    (hpage : page < heapStart / 4096) : AllOrNothing bootMachine (growth h bs sizeofArea) page 1 := by
  refine Or.inr (Or.inr fun j hj => ?_)
  rw [Nat.lt_one_iff.mp hj, Nat.add_zero, Finset.Ico_self, Finset.union_empty]
  have hcard := growth_card h bs sizeofArea
  have hframes := framesFor_le bootMachine (insert page (growth h bs sizeofArea))
  have hinsert := Finset.card_insert_le page (growth h bs sizeofArea)
  have hlow : page < windowPage := lt_trans hpage (by decide)
  rintro (⟨f, hf, -⟩ | hin | ⟨q, -, heq⟩ | hfew)
  · rw [bootMachine_tr hlow] at hf
    cases hf
  · have hend := mem_growth hin
    omega
  · omega
  · have hfree : bootMachine.pmm.freePages = 5 := rfl
    omega

/-- A page is mapped at once. -/
theorem vma_run_accounts_one_page :
    ∃ mm₀ s, Settled ∅ (kernelOn bootMachine) ∧ (kernelOn bootMachine).handed = [] ∧
      mmCreate kernelOps (kernelOn bootMachine) = some mm₀ ∧ mm₀.self ≠ 0 ∧
      Transition.Run (FrameStep MmOp.Thrifty) ⟨mm₀, ∅⟩ s ∧ s.mm.env.handed = [1] ∧
      Accounted s ∧ ∀ k', mmDestroy kernelOps s.mm = some k' → (k'.handed = [] ↔ s.own = ∅) := by
  obtain ⟨mm₀, hcreate, hself, hmachine⟩ := kernelOn_create bootMachine
  have hrun : ((mmCreate kernelOps (kernelOn bootMachine)).bind fun mm =>
      MmOp.exec kernelOps mm (.mmap 0x100000 4096 0x10003)).map (fun x => x.2.env.handed) = some [1] := by
    decide +kernel
  rw [hcreate] at hrun
  obtain ⟨⟨st, mm⟩, hexec, hhanded⟩ := Option.map_eq_some_iff.mp hrun
  have hsettled := kernelOn_settled bootMachine_booted
  obtain ⟨bs, hint⟩ := (created_owns hsettled hcreate hself).2.ok.integrity
  have hthrifty : MmOp.Thrifty mm₀ ∅ (.mmap 0x100000 4096 0x10003) := by
    refine ⟨Or.inr rfl, fun _ start stop hplace => ⟨bs, hint.good, ?_⟩⟩
    obtain ⟨rfl, rfl⟩ := placeArea_fixed (by decide) hplace
    rw [hmachine]
    exact bootMachine_gives hint.good.started (by decide)
  have hstart : Transition.Run (FrameStep MmOp.Thrifty) ⟨mm₀, ∅⟩ ⟨mm₀, ∅⟩ := .refl _
  have hsteps := hstart.snoc (FrameStep.call (.mmap 0x100000 4096 0x10003) st mm hthrifty hexec)
  obtain ⟨haccounted, hdestroy⟩ := vma_run_accounts hsettled rfl hcreate hself hsteps
  exact ⟨mm₀, _, hsettled, rfl, hcreate, hself, hsteps, hhanded, haccounted, hdestroy⟩

/-- The page is unmapped again, and its frame is lost. -/
theorem vma_run_leaks :
    ¬ ∀ (k : Kernel) (mm₀ : Mm Kernel) (s : Space), Settled ∅ k → k.handed = [] →
      mmCreate kernelOps k = some mm₀ →
      mm₀.self ≠ 0 → Transition.Run (FrameStep fun _ _ _ => True) ⟨mm₀, ∅⟩ s →
      Accounted s ∧ ∀ k', mmDestroy kernelOps s.mm = some k' → k'.handed = [] := by
  intro h
  obtain ⟨mm₀, hcreate, hself, -⟩ := kernelOn_create bootMachine
  have hrun : ((mmCreate kernelOps (kernelOn bootMachine)).bind fun mm =>
      (MmOp.exec kernelOps mm (.mmap 0x100000 4096 0x10003)).bind fun x =>
        MmOp.exec kernelOps x.2 (.munmap 0x100000 4096)).map
        (fun x => (x.2.env.handed, x.2.areas x.2.mmap)) = some ([1], none) := by decide +kernel
  rw [hcreate, Option.bind_some] at hrun
  obtain ⟨⟨st', mm'⟩, hboth, hdata⟩ := Option.map_eq_some_iff.mp hrun
  obtain ⟨⟨st, mm⟩, hexec, hexec'⟩ := Option.bind_eq_some_iff.mp hboth
  obtain ⟨hhanded, hnone⟩ := Prod.mk.inj hdata
  have hstart : Transition.Run (FrameStep fun _ _ _ => True) ⟨mm₀, ∅⟩ ⟨mm₀, ∅⟩ := .refl _
  have hsteps := (hstart.snoc (FrameStep.call (.mmap 0x100000 4096 0x10003) st mm trivial hexec)).snoc
    (FrameStep.call (.munmap 0x100000 4096) st' mm' trivial hexec')
  obtain ⟨⟨hmapped, -⟩, -⟩ := h _ mm₀ _ (kernelOn_settled bootMachine_booted) rfl hcreate hself hsteps
  obtain ⟨va, hva, -⟩ := hmapped 1 (by
    change 1 ∈ mm'.env.handed
    rw [hhanded]
    exact List.mem_cons_self)
  exact not_contains_of_dangling hnone hva

end Frostix.Vma
