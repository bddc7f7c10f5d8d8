import Frostix.Services.Kernel

/-!
Pages with an owner. The pages of the heap and of the slabs lie below the window, each is
mapped to a frame in use, and no two of them share one: so a page of one of them can be
unmapped and its frame freed without a trace on the others. -/
namespace Frostix.Services
open Machine32 Pmm Vmm Heap

/-- The pages of `U` are mapped to frames in use, each to its own. -/
structure Possessed (U : Set Nat) (m : Machine) : Prop where
  booted : Booted m
  below : ∀ q ∈ U, q < windowPage
  mapped : ∀ q ∈ U, ∃ f, m.tr q = some f ∧ Owned m f
  apart : ∀ q ∈ U, ∀ r ∈ U, m.tr q = m.tr r → q = r

section Pages

variable {U D : Set Nat} {m m' : Machine}

theorem Possessed.mono {V : Set Nat} (h : Possessed U m) (hsub : V ⊆ U) : Possessed V m :=
  ⟨h.booted, fun q hq => h.below q (hsub hq), fun q hq => h.mapped q (hsub hq),
    fun q hq r hr => h.apart q (hsub hq) r (hsub hr)⟩

theorem Possessed.keep (h : Possessed U m) (hbooted : Booted m')
    (htr : ∀ q ∈ U, m'.tr q = m.tr q) (howned : ∀ q ∈ U, ∀ f, m.tr q = some f → Owned m' f) :
    Possessed U m' := by
  refine ⟨hbooted, h.below, ?_, ?_⟩
  · intro q hq
    obtain ⟨f, hf, -⟩ := h.mapped q hq
    exact ⟨f, (htr q hq).trans hf, howned q hq f hf⟩
  · intro q hq r hr heq
    rw [htr q hq, htr r hr] at heq
    exact h.apart q hq r hr heq

theorem Possessed.join (h : Possessed U m) {p f : Nat} (hp : p < windowPage) (hf : m.tr p = some f)
    (howned : Owned m f) (hnew : ∀ q ∈ U, m.tr q ≠ some f) : Possessed (insert p U) m := by
  refine ⟨h.booted, ?_, ?_, ?_⟩
  · rintro q (rfl | hq)
    · exact hp
    · exact h.below q hq
  · rintro q (rfl | hq)
    · exact ⟨f, hf, howned⟩
    · exact h.mapped q hq
  · rintro q (rfl | hq) r (rfl | hr) heq
    · rfl
    · exact absurd (heq.symm.trans hf) (hnew r hr)
    · exact absurd (heq.trans hf) (hnew q hq)
    · exact h.apart q hq r hr heq

theorem Possessed.page_lt (h : Possessed U m) {q : Nat} (hq : q ∈ U) : q < pageLimit :=
  lt_trans (h.below q hq) (by decide)

theorem Possessed.quiet (h : Possessed U m) (hq : Quiet D m m') : Possessed U m' := by
  refine h.keep (hq.booted h.booted) ?_ ?_
  · intro q hU
    obtain ⟨f, hf, howned⟩ := h.mapped q hU
    rw [hf]
    exact hq.keeps (h.page_lt hU) hf howned.taken
  · intro q hU f hf
    obtain ⟨g, hg, howned⟩ := h.mapped q hU
    cases hf.symm.trans hg
    exact hq.owned howned

theorem Possessed.fresh (h : Possessed U m) {p f : Nat} (hfree : Free m.pmm f) (hp : p ∈ U) :
    m.tr p ≠ some f := by
  intro hf
  obtain ⟨g, hg, howned⟩ := h.mapped p hp
  cases hf.symm.trans hg
  exact howned.taken hfree

/-- The pages behind the heap are backed. -/
theorem Possessed.backed (h : Possessed U m) {page n a : Nat} (hb : Backed m m' page n a) :
    Possessed (U ∪ {q | page ≤ q ∧ q < page + n}) m' ∧ ∀ q, page ≤ q → q < page + n → q ∉ U := by
  have hold := h.quiet hb.quiet
  have hbelow := hb.below
  have hkept : ∀ q ∈ U, m'.tr q = m.tr q := by
    intro q hq
    obtain ⟨f, hf, howned⟩ := h.mapped q hq
    rw [hf]
    exact hb.quiet.keeps (h.page_lt hq) hf howned.taken
  have hnew : ∀ q ∈ U, ∀ j < n, m'.tr q ≠ some (a + j) := by
    intro q hq j hj hf
    rw [hkept q hq] at hf
    exact h.fresh (hb.fresh j hj) hq hf
  have hdone : ∀ q, page ≤ q → q < page + n → ∃ j < n, m'.tr q = some (a + j) ∧ q = page + j := by
    intro q hlo hhi
    obtain ⟨j, rfl⟩ := Nat.exists_eq_add_of_le hlo
    exact ⟨j, by omega, hb.done j (by omega), rfl⟩
  refine ⟨⟨hold.booted, ?_, ?_, ?_⟩, ?_⟩
  · rintro q (hq | ⟨-, hhi⟩)
    · exact hold.below q hq
    · omega
  · rintro q (hq | ⟨hlo, hhi⟩)
    · exact hold.mapped q hq
    · obtain ⟨j, hj, hf, -⟩ := hdone q hlo hhi
      exact ⟨a + j, hf, hb.owned j hj⟩
  · rintro q (hq | ⟨hlo, hhi⟩) r (hr | ⟨hlo', hhi'⟩) heq
    · exact hold.apart q hq r hr heq
    · obtain ⟨j, hj, hf, -⟩ := hdone r hlo' hhi'
      exact absurd (heq.trans hf) (hnew q hq j hj)
    · obtain ⟨j, hj, hf, -⟩ := hdone q hlo hhi
      exact absurd (heq.symm.trans hf) (hnew r hr j hj)
    · obtain ⟨i, -, hf, rfl⟩ := hdone q hlo hhi
      obtain ⟨j, -, hf', rfl⟩ := hdone r hlo' hhi'
      rw [hf, hf', Option.some.injEq] at heq
      omega
  · intro q hlo hhi hq
    obtain ⟨j, hj, hf, -⟩ := hdone q hlo hhi
    exact hnew q hq j hj hf

/-- A page is mapped to a frame that was free before. -/
theorem Possessed.installed (h : Possessed U m) {q : BitmapAllocator} {p f : Nat} (ht : Taken m.pmm q f 1)
    (hwf : WellFormed q) (hp : p < windowPage) (hm : Installed { m with pmm := q } m' p f) :
    Possessed (insert p U) m' ∧ p ∉ U := by
  have hquiet := h.booted.toSound.take ht hwf
  have hold := h.quiet hquiet
  have hfree : Free m.pmm f := ht.was_free 0 (by decide)
  have hne : ∀ r ∈ U, r ≠ p := by
    rintro r hr rfl
    obtain ⟨g, hg, howned⟩ := h.mapped r hr
    rcases hm.before with hnone | hsome
    · cases hg.symm.trans hnone
    · cases hg.symm.trans hsome
      exact howned.taken hfree
  have hkept : ∀ r ∈ U, m'.tr r = m.tr r := by
    intro r hr
    obtain ⟨g, hg, -⟩ := h.mapped r hr
    rw [hg]
    exact hm.stay r (h.page_lt hr) (hne r hr) g hg
  have hbooted : Booted m' := by
    refine ⟨hm.sound, ?_⟩
    obtain ⟨t, ht₀⟩ := Option.ne_none_iff_exists'.mp hold.booted.firstTable
    have hlt : windowPage < pageLimit := by decide
    have htr := (hold.booted.tr_window (q := windowPage) le_rfl hlt).trans ht₀
    have hstay := hm.stay windowPage hlt (ne_of_gt hp) t htr
    rw [hm.sound.tr_window le_rfl hlt] at hstay
    rw [show (0 : Nat) = windowPage % 1024 from rfl, hstay]
    exact Option.some_ne_none t
  have hall : Possessed U m' := by
    refine hold.keep hbooted hkept ?_
    intro r hr g hg
    obtain ⟨g', hg', howned⟩ := hold.mapped r hr
    cases hg.symm.trans hg'
    exact hm.owned howned (Or.inl hp)
  have hown : Owned m' f :=
    hm.owned (h.booted.toSound.taken_owned ht le_rfl (Nat.lt_succ_self f)) (Or.inl hp)
  refine ⟨hall.join hp hm.done hown ?_, fun hU => hne p hU rfl⟩
  intro r hr hf
  rw [hkept r hr] at hf
  exact h.fresh hfree hr hf

/-- A page is unmapped and its frame is freed. -/
theorem Possessed.released (h : Possessed U m) {p f : Nat} (hp : p ∈ U) (hf : m.tr p = some f)
    (hc : Cleared m m' p) {q : BitmapAllocator} (hsound : Sound { m' with pmm := q })
    (htotal : q.totalPages = m'.pmm.totalPages) (hfree : ∀ b, Free q b ↔ Free m'.pmm b ∨ b = f) :
    Possessed (U \ {p}) { m' with pmm := q } := by
  have hlast : windowPage < pageLimit := by decide
  have hbelow := h.below p hp
  have hkept : ∀ r < pageLimit, r ≠ p → m'.tr r = m.tr r := by
    intro r hr hne
    refine hc.stay r hr ?_
    rintro (heq | ⟨hwin, -⟩)
    · exact hne heq
    · exact absurd hwin (not_le.mpr hbelow)
  have hbooted : Booted { m' with pmm := q } := by
    refine ⟨hsound, ?_⟩
    have hsame := hkept windowPage hlast (ne_of_gt hbelow)
    rw [hc.sound.tr_window le_rfl hlast, h.booted.tr_window le_rfl hlast] at hsame
    change m'.table 0 ≠ none
    rw [show (0 : Nat) = windowPage % 1024 from rfl, hsame]
    exact h.booted.firstTable
  refine (h.mono Set.sdiff_subset).keep hbooted ?_ ?_
  · rintro r ⟨hr, hne⟩
    exact hkept r (h.page_lt hr) hne
  · rintro r ⟨hr, hne⟩ g hg
    obtain ⟨g', hg', howned⟩ := h.mapped r hr
    cases hg.symm.trans hg'
    have hother : g ≠ f := by
      rintro rfl
      exact hne (h.apart r hr p hp (hg.trans hf.symm))
    refine ⟨howned.pos, ?_, ?_, fun k hk htable => howned.noTable k hk (hc.tables k hk g htable), ?_⟩
    · rw [htotal, hc.pmm]
      exact howned.lt
    · rw [hfree, hc.pmm]
      exact not_or.mpr ⟨howned.taken, hother⟩
    · change g ≠ m'.cr3
      rw [hc.cr3]
      exact howned.noDirectory

end Pages

/-- The pages of `[HEAP_START, e)`. -/
def heapPages (e : Nat) : Set Nat := {q | heapStart / 4096 ≤ q ∧ q < e / 4096}

/-- The heap ends at `e`, not before `lo`, and the pages of `P` are those of the slabs. -/
structure Divided (P : Set Nat) (lo e : Nat) (m : Machine) : Prop where
  possessed : Possessed (heapPages e ∪ P) m
  apart : ∀ p ∈ P, p ∉ heapPages e
  aligned : e % 4096 = 0
  bound : e ≤ windowPage * 4096
  grown : lo ≤ e

section Division

variable {P : Set Nat} {lo e : Nat} {m m' : Machine}

theorem Divided.quiet {D : Set Nat} (h : Divided P lo e m) (hq : Quiet D m m') : Divided P lo e m' :=
  ⟨h.possessed.quiet hq, h.apart, h.aligned, h.bound, h.grown⟩

theorem Divided.backed {n a : Nat} (h : Divided P lo e m) (hb : Backed m m' (e / 4096) n a) :
    Divided P lo (e + n * 4096) m' := by
  obtain ⟨hall, hnew⟩ := h.possessed.backed hb
  have hbelow := hb.below
  have hbound := h.bound
  have hgrown := h.grown
  have hdiv : (e + n * 4096) / 4096 = e / 4096 + n := by omega
  have hsplit : ∀ q ∈ heapPages (e + n * 4096), q ∈ heapPages e ∨ e / 4096 ≤ q ∧ q < e / 4096 + n := by
    rintro q ⟨hlo, hhi⟩
    rw [hdiv] at hhi
    by_cases hq : q < e / 4096
    · exact Or.inl ⟨hlo, hq⟩
    · exact Or.inr ⟨not_lt.mp hq, hhi⟩
  have haligned := h.aligned
  refine ⟨hall.mono ?_, ?_, by omega, by omega, by omega⟩
  · rintro q (hq | hq)
    · exact (hsplit q hq).imp Or.inl id
    · exact Or.inl (Or.inr hq)
  · intro p hp hq
    rcases hsplit p hq with hq | ⟨hlo, hhi⟩
    · exact h.apart p hp hq
    · exact hnew p hlo hhi (Or.inr hp)

theorem Divided.setPmm (h : Divided P lo e m) {q : BitmapAllocator} (hsound : Sound { m with pmm := q })
    (htotal : q.totalPages = m.pmm.totalPages) (hfree : ∀ f, Free q f → Free m.pmm f) :
    Divided P lo e { m with pmm := q } := by
  have hquiet : Quiet ∅ m { m with pmm := q } :=
    ⟨hsound, rfl, htotal, hfree, fun _ _ _ hf => Or.inl hf, fun _ _ _ hf => Or.inl hf, fun _ _ _ _ hq => hq⟩
  exact h.quiet hquiet

theorem Divided.join (h : Divided P lo e m) {p : Nat} (hall : Possessed (insert p (heapPages e ∪ P)) m')
    (hp : p ∉ heapPages e ∪ P) : Divided (insert p P) lo e m' := by
  refine ⟨?_, ?_, h.aligned, h.bound, h.grown⟩
  · rw [Set.union_insert]
    exact hall
  · rintro r (rfl | hr)
    · exact fun hheap => hp (Or.inl hheap)
    · exact h.apart r hr

theorem Divided.leave (h : Divided P lo e m) {p : Nat} (hp : p ∈ P)
    (hall : Possessed ((heapPages e ∪ P) \ {p}) m') : Divided (P \ {p}) lo e m' := by
  refine ⟨hall.mono ?_, fun r hr => h.apart r hr.1, h.aligned, h.bound, h.grown⟩
  rintro r (hr | ⟨hr, hne⟩)
  · refine ⟨Or.inl hr, ?_⟩
    rintro rfl
    exact h.apart r hp hr
  · exact ⟨Or.inr hr, hne⟩

theorem divided_grows : Grows machinePages (Divided P lo) :=
  machinePages_grows (fun _ _ h => ⟨h.possessed.booted, h.bound⟩) (fun _ _ _ h hq => h.quiet hq)
    (fun _ _ _ _ _ h hb => h.backed hb)

end Division

end Frostix.Services
