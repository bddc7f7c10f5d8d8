import Frostix.Vmm.AnyPage

/-!
What a call may do to the pages of others. `Quiet D` says that no frame was given back and
that every present page kept its translation, unless it is a page of `D` that was mapped to
a frame nobody uses. Calls compose, and a run of pages that is mapped and rolled back is
quiet on its own pages. -/
namespace Frostix.Vmm
open Machine32 Pmm

/-- The running kernel: its own code is mapped, so the first page table exists. -/
structure Booted (m : Machine) : Prop extends Sound m where
  firstTable : m.table 0 ≠ none

structure Quiet (D : Set Nat) (m m' : Machine) : Prop where
  sound : Sound m'
  cr3 : m'.cr3 = m.cr3
  total : m'.pmm.totalPages = m.pmm.totalPages
  free : ∀ f, Free m'.pmm f → Free m.pmm f
  tables : ∀ k < 1023, ∀ f, m'.table k = some f → m.table k = some f ∨ Free m.pmm f
  kept : ∀ q < pageLimit, ∀ f, m.tr q = some f → m'.tr q = some f ∨ q ∈ D ∧ Free m.pmm f
  empty : (∀ p ∈ D, p < windowPage) → ∀ q < windowPage, q ∉ D → m.tr q = none → m'.tr q = none

section Relation

variable {D : Set Nat} {m m' : Machine}

theorem Quiet.refl (D : Set Nat) (h : Sound m) : Quiet D m m :=
  ⟨h, rfl, rfl, fun _ hf => hf, fun _ _ _ hf => Or.inl hf, fun _ _ _ hf => Or.inl hf, fun _ _ _ _ hq => hq⟩

theorem Quiet.mono {E : Set Nat} (h : Quiet D m m') (hsub : D ⊆ E) : Quiet E m m' := by
  refine ⟨h.sound, h.cr3, h.total, h.free, h.tables, ?_,
    fun hbelow q hq hnot => h.empty (fun p hp => hbelow p (hsub hp)) q hq fun hD => hnot (hsub hD)⟩
  intro q hq f hf
  rcases h.kept q hq f hf with hf' | ⟨hD, hfree⟩
  · exact Or.inl hf'
  · exact Or.inr ⟨hsub hD, hfree⟩

theorem Quiet.trans {m'' : Machine} (h : Quiet D m m') (h' : Quiet D m' m'') : Quiet D m m'' := by
  refine ⟨h'.sound, h'.cr3.trans h.cr3, h'.total.trans h.total, fun f hf => h.free f (h'.free f hf), ?_, ?_,
    fun hbelow q hq hnot hnone => h'.empty hbelow q hq hnot (h.empty hbelow q hq hnot hnone)⟩
  · intro k hk f hf
    rcases h'.tables k hk f hf with hf | hf
    · exact h.tables k hk f hf
    · exact Or.inr (h.free f hf)
  · intro q hq f hf
    rcases h.kept q hq f hf with hf' | hloose
    · rcases h'.kept q hq f hf' with hf'' | ⟨hD, hfree⟩
      · exact Or.inl hf''
      · exact Or.inr ⟨hD, h.free f hfree⟩
    · exact Or.inr hloose

theorem Quiet.keeps (h : Quiet D m m') {q f : Nat} (hq : q < pageLimit) (hf : m.tr q = some f)
    (hused : ¬ Free m.pmm f) : m'.tr q = some f := by
  rcases h.kept q hq f hf with hf' | ⟨-, hfree⟩
  · exact hf'
  · exact absurd hfree hused

theorem Quiet.owned (h : Quiet D m m') {f : Nat} (hf : Owned m f) : Owned m' f := by
  refine ⟨hf.pos, by rw [h.total]; exact hf.lt, fun hfree => hf.taken (h.free f hfree), ?_, ?_⟩
  · intro k hk htable
    rcases h.tables k hk f htable with hold | hfree
    · exact hf.noTable k hk hold
    · exact hf.taken hfree
  · rw [h.cr3]
    exact hf.noDirectory

theorem Quiet.keepsTable (h : Quiet D m m') (hm : Sound m) {k t : Nat} (hk : k < 1023)
    (ht : m.table k = some t) : m'.table k = some t := by
  have hlt : windowPage + k < pageLimit := by
    unfold windowPage pageLimit
    omega
  have hmod : (windowPage + k) % 1024 = k := by
    unfold windowPage
    omega
  have htr := hm.tr_window (Nat.le_add_right windowPage k) hlt
  rw [hmod] at htr
  have hkept := h.keeps hlt (htr.trans ht) (testBit_iff.mp (hm.tables.marked k hk t ht)).2
  rw [h.sound.tr_window (Nat.le_add_right windowPage k) hlt, hmod] at hkept
  exact hkept

theorem Quiet.booted (h : Quiet D m m') (hm : Booted m) : Booted m' := by
  refine ⟨h.sound, ?_⟩
  obtain ⟨t, ht⟩ := Option.ne_none_iff_exists'.mp hm.firstTable
  rw [h.keepsTable hm.toSound (by decide) ht]
  exact Option.some_ne_none t

end Relation

section Allocator

variable {m : Machine}

theorem Sound.setPmm (h : Sound m) {q : BitmapAllocator} (hq : WellFormed q)
    (hdir : bitmapTestBit q m.cr3 = true)
    (htables : ∀ k < 1023, ∀ f, m.table k = some f → bitmapTestBit q f = true) :
    Sound { m with pmm := q } :=
  ⟨h.enabled, hq, ⟨h.tables.selfMap, htables, h.tables.apart, h.tables.notDirectory⟩, hdir⟩

theorem Sound.take (h : Sound m) {q : BitmapAllocator} {a n : Nat} (ht : Taken m.pmm q a n)
    (hq : WellFormed q) : Quiet ∅ m { m with pmm := q } :=
  ⟨h.setPmm hq (ht.testBit h.directory) fun k hk f hf => ht.testBit (h.tables.marked k hk f hf), rfl,
    ht.total_eq, fun f hf => ((ht.free_iff f).mp hf).1, fun _ _ _ hf => Or.inl hf, fun _ _ _ hf => Or.inl hf,
    fun _ _ _ _ hq => hq⟩

theorem Sound.taken_owned (h : Sound m) {q : BitmapAllocator} {a n : Nat} (ht : Taken m.pmm q a n)
    {f : Nat} (hlo : a ≤ f) (hhi : f < a + n) : Owned { m with pmm := q } f := by
  have hfree : Free m.pmm f := by
    have hwas := ht.was_free (f - a) (by omega)
    rwa [show a + (f - a) = f by omega] at hwas
  have hpos := ht.pos
  have hfits := ht.fits
  refine ⟨by omega, by rw [ht.total_eq]; omega, fun hf => ((ht.free_iff f).mp hf).2 ⟨hlo, hhi⟩, ?_, ?_⟩
  · intro k hk hf
    exact (testBit_iff.mp (h.tables.marked k hk f hf)).2 hfree
  · rintro rfl
    exact (testBit_iff.mp h.directory).2 hfree

theorem Sound.giveBack (h : Sound m) {a n : Nat} (howned : ∀ f, a ≤ f → f < a + n → Owned m f) :
    Sound { m with pmm := pmmFreePages m.pmm (a * 4096) n } ∧
      (∀ f, Free (pmmFreePages m.pmm (a * 4096) n) f ↔ Free m.pmm f ∨ a ≤ f ∧ f < a + n) ∧
      (pmmFreePages m.pmm (a * 4096) n).totalPages = m.pmm.totalPages := by
  have hdiv : a * 4096 / 4096 = a := Nat.mul_div_cancel a (by decide)
  obtain ⟨hwf, hfree, hsize, htotal⟩ := @pmmFreePages_spec _ h.pmm (a * 4096) n (by
    intro i hi
    rw [hdiv]
    exact ⟨(howned (a + i) (by omega) (by omega)).pos, (howned (a + i) (by omega) (by omega)).lt⟩)
  simp only [hdiv] at hfree
  have hkeep : ∀ f, bitmapTestBit m.pmm f = true → ¬ Owned m f →
      bitmapTestBit (pmmFreePages m.pmm (a * 4096) n) f = true := by
    intro f hf hnot
    rw [testBit_iff] at hf ⊢
    rw [hsize, hfree]
    refine ⟨hf.1, ?_⟩
    rintro (hold | ⟨hlo, hhi⟩)
    · exact hf.2 hold
    · exact hnot (howned f hlo hhi)
  refine ⟨h.setPmm hwf (hkeep _ h.directory fun ho => ho.noDirectory rfl) ?_, hfree, htotal⟩
  intro k hk f hf
  exact hkeep f (h.tables.marked k hk f hf) fun ho => ho.noTable k hk hf

end Allocator

/-- From `m₀` to `m`, `i` pages from `page` on were mapped, page `page + j` to the frame
`g j`, which was free in `m₀`. -/
structure Laid (m₀ m : Machine) (page i : Nat) (g : Nat → Nat) : Prop where
  sound : Sound m
  cr3 : m.cr3 = m₀.cr3
  total : m.pmm.totalPages = m₀.pmm.totalPages
  free : ∀ f, Free m.pmm f → Free m₀.pmm f
  tables : ∀ k < 1023, ∀ f, m.table k = some f → m₀.table k = some f ∨ Free m₀.pmm f
  stay : ∀ q < pageLimit, q < page ∨ page + i ≤ q → ∀ f, m₀.tr q = some f → m.tr q = some f
  empty : ∀ q < pageLimit, q < page ∨ page + i ≤ q → i = 0 ∨ (q < windowPage ↔ page < windowPage) →
    m₀.tr q = none → m.tr q = none
  side : ∀ j < i, page + j < windowPage ↔ page < windowPage
  done : ∀ j < i, m.tr (page + j) = some (g j)
  before : ∀ j < i, m₀.tr (page + j) = none ∨ m₀.tr (page + j) = some (g j)
  fresh : ∀ j < i, Free m₀.pmm (g j) ∧ ¬ Free m.pmm (g j)

/-- From `m` to `m'`, `c` pages from `page` on were unmapped. -/
structure Wiped (m m' : Machine) (page c : Nat) : Prop where
  sound : Sound m'
  cr3 : m'.cr3 = m.cr3
  pmm : m'.pmm = m.pmm
  tables : ∀ k < 1023, ∀ f, m'.table k = some f → m.table k = some f
  stay : ∀ q < pageLimit, (∀ j < c, ¬ Touches (page + j) q) → m'.tr q = m.tr q
  fewer : ∀ q < pageLimit, ∀ f, m'.tr q = some f → m.tr q = some f
  gone : ∀ j < c, m'.tr (page + j) = none

section Runs

variable {m₀ m m' : Machine} {page i : Nat} {g : Nat → Nat}

theorem Laid.start (h : Sound m) (page : Nat) (g : Nat → Nat) : Laid m m page 0 g :=
  ⟨h, rfl, rfl, fun _ hf => hf, fun _ _ _ hf => Or.inl hf, fun _ _ _ _ hf => hf, fun _ _ _ _ hf => hf,
    nofun, nofun, nofun, nofun⟩

theorem Laid.congr (h : Laid m₀ m page i g) {g' : Nat → Nat} (hg : ∀ j < i, g' j = g j) :
    Laid m₀ m page i g' := by
  refine ⟨h.sound, h.cr3, h.total, h.free, h.tables, h.stay, h.empty, h.side, ?_, ?_, ?_⟩
  · intro j hj
    rw [hg j hj]
    exact h.done j hj
  · intro j hj
    rw [hg j hj]
    exact h.before j hj
  · intro j hj
    rw [hg j hj]
    exact h.fresh j hj

theorem Laid.setPmm (h : Laid m₀ m page i g) {q : BitmapAllocator} (hs : Sound { m with pmm := q })
    (htotal : q.totalPages = m.pmm.totalPages) (hfree : ∀ f, Free q f → Free m.pmm f) :
    Laid m₀ { m with pmm := q } page i g :=
  ⟨hs, h.cr3, htotal.trans h.total, fun f hf => h.free f (hfree f hf), h.tables, h.stay, h.empty, h.side,
    h.done,
    h.before, fun j hj => ⟨(h.fresh j hj).1, fun hf => (h.fresh j hj).2 (hfree _ hf)⟩⟩

/-- One more page. -/
theorem Laid.map (h : Laid m₀ m page i g) (hlast : page + i < pageLimit) (hm : Installed m m' (page + i) (g i))
    (hside : page + i < windowPage ↔ page < windowPage) (hfresh : Free m₀.pmm (g i))
    (howned : Owned m (g i)) : Laid m₀ m' page (i + 1) g := by
  have hpmm : m'.pmm.totalPages = m.pmm.totalPages ∧ ∀ f, Free m'.pmm f → Free m.pmm f := by
    cases hm.grant with
    | kept _ hsame =>
        rw [hsame]
        exact ⟨rfl, fun _ hf => hf⟩
    | added t _ ht _ => exact ⟨ht.total_eq, fun f hf => ((ht.free_iff f).mp hf).1⟩
  refine ⟨hm.sound, hm.cr3.trans h.cr3, hpmm.1.trans h.total, fun f hf => h.free f (hpmm.2 f hf), ?_, ?_,
    ?_, ?_,
    ?_, ?_, ?_⟩
  · intro k hk f hf
    rcases hm.tables k hk f hf with hf | hf | ⟨-, rfl⟩
    · exact h.tables k hk f hf
    · exact Or.inr (h.free f hf)
    · exact Or.inr hfresh
  · intro q hq hout f hf
    exact hm.stay q hq (by omega) f (h.stay q hq (by omega) f hf)
  · intro q hq hout hqside hnone
    have hq' : q < windowPage ↔ page < windowPage := hqside.resolve_left (Nat.succ_ne_zero i)
    exact hm.empty q hq (by omega) (hq'.trans hside.symm) (h.empty q hq (by omega) (Or.inr hq') hnone)
  · intro j hj
    rcases Nat.lt_succ_iff_lt_or_eq.mp hj with hlt | rfl
    · exact h.side j hlt
    · exact hside
  · intro j hj
    rcases Nat.lt_succ_iff_lt_or_eq.mp hj with hlt | rfl
    · exact hm.stay _ (by omega) (by omega) _ (h.done j hlt)
    · exact hm.done
  · intro j hj
    rcases Nat.lt_succ_iff_lt_or_eq.mp hj with hlt | rfl
    · exact h.before j hlt
    · cases hbefore : m₀.tr (page + j) with
      | none => exact Or.inl rfl
      | some f =>
          have hf := h.stay _ hlast (Or.inr le_rfl) f hbefore
          rcases hm.before with hnone | hsome
          · rw [hf] at hnone
            cases hnone
          · exact Or.inr (hf.symm.trans hsome)
  · intro j hj
    rcases Nat.lt_succ_iff_lt_or_eq.mp hj with hlt | rfl
    · exact ⟨(h.fresh j hlt).1, fun hf => (h.fresh j hlt).2 (hpmm.2 _ hf)⟩
    · exact ⟨hfresh, fun hf => howned.taken (hpmm.2 _ hf)⟩

theorem Laid.loose (h : Laid m₀ m page i g) {q f : Nat} (hlo : page ≤ q) (hhi : q < page + i)
    (hf : m₀.tr q = some f) : Free m₀.pmm f := by
  obtain ⟨j, rfl⟩ := Nat.exists_eq_add_of_le hlo
  rcases h.before j (by omega) with hnone | hsome
  · rw [hnone] at hf
    cases hf
  · rw [hsome] at hf
    cases hf
    exact (h.fresh j (by omega)).1

theorem Laid.empty_below (h : Laid m₀ m page i g) (hbelow : ∀ p ∈ {q | page ≤ q ∧ q < page + i}, p < windowPage)
    {q : Nat} (hq : q < windowPage) (hnot : q ∉ {q | page ≤ q ∧ q < page + i}) (hnone : m₀.tr q = none) :
    m.tr q = none := by
  have hlt : q < pageLimit := lt_trans hq (by decide)
  refine h.empty q hlt ?_ ?_ hnone
  · by_contra hin
    exact hnot ⟨by omega, by omega⟩
  · by_cases hi : i = 0
    · exact Or.inl hi
    · have hpage := hbelow page ⟨le_rfl, by omega⟩
      exact Or.inr (iff_of_true hq hpage)

theorem Laid.toQuiet (h : Laid m₀ m page i g) : Quiet {q | page ≤ q ∧ q < page + i} m₀ m := by
  refine ⟨h.sound, h.cr3, h.total, h.free, h.tables, ?_, fun hbelow q hq hnot => h.empty_below hbelow hq hnot⟩
  intro q hq f hf
  by_cases hin : page ≤ q ∧ q < page + i
  · exact Or.inr ⟨hin, h.loose hin.1 hin.2 hf⟩
  · exact Or.inl (h.stay q hq (by omega) f hf)

theorem Wiped.start (h : Sound m) (page : Nat) : Wiped m m page 0 :=
  ⟨h, rfl, rfl, fun _ _ _ hf => hf, fun _ _ _ => rfl, fun _ _ _ hf => hf, nofun⟩

theorem Wiped.clear {m'' : Machine} (h : Wiped m m' page i) (hlast : page + i < pageLimit)
    (hc : Cleared m' m'' (page + i)) : Wiped m m'' page (i + 1) := by
  refine ⟨hc.sound, hc.cr3.trans h.cr3, hc.pmm.trans h.pmm,
    fun k hk f hf => h.tables k hk f (hc.tables k hk f hf), ?_,
    fun q hq f hf => h.fewer q hq f (hc.fewer q hq f hf), ?_⟩
  · intro q hq hnot
    rw [hc.stay q hq (hnot i (Nat.lt_succ_self i)), h.stay q hq fun j hj => hnot j (Nat.lt_succ_of_lt hj)]
  · intro j hj
    rcases Nat.lt_succ_iff_lt_or_eq.mp hj with hlt | rfl
    · by_contra hsome
      obtain ⟨f, hf⟩ := Option.ne_none_iff_exists'.mp hsome
      have hf' := hc.fewer _ (by omega) f hf
      rw [h.gone j hlt] at hf'
      cases hf'
    · exact hc.gone

theorem Wiped.absent (h : Wiped m m' page i) {q : Nat} (hq : q < pageLimit) (hnone : m.tr q = none) :
    m'.tr q = none := by
  by_contra hsome
  obtain ⟨f, hf⟩ := Option.ne_none_iff_exists'.mp hsome
  rw [h.fewer q hq f hf] at hnone
  cases hnone

/-- A rollback leaves the pages of others alone: where the run entered page tables, there
were none. -/
theorem Laid.wiped (h₀ : Sound m₀) (h : Laid m₀ m page i g) (hlast : page + i < pageLimit)
    (hw : Wiped m m' page i) : Quiet {q | page ≤ q ∧ q < page + i} m₀ m' := by
  refine ⟨hw.sound, hw.cr3.trans h.cr3, by rw [hw.pmm]; exact h.total, ?_,
    fun k hk f hf => h.tables k hk f (hw.tables k hk f hf), ?_,
    fun hbelow q hq hnot hnone => hw.absent (lt_trans hq (by decide)) (h.empty_below hbelow hq hnot hnone)⟩
  · rw [hw.pmm]
    exact h.free
  · intro q hq f hf
    by_cases hin : page ≤ q ∧ q < page + i
    · exact Or.inr ⟨hin, h.loose hin.1 hin.2 hf⟩
    left
    rw [hw.stay q hq ?_]
    · exact h.stay q hq (by omega) f hf
    rintro j hj (rfl | ⟨hwin, hregion⟩)
    · exact hin ⟨Nat.le_add_right page j, by omega⟩
    · have hindex : (page + j) % 1024 < 1023 := by
        unfold windowPage at hwin
        unfold pageLimit at hlast
        omega
      obtain ⟨t, ht⟩ := table_of_tr hf
      rw [hregion] at ht
      have htr := (h₀.tr_window hwin (by omega)).trans ht
      have hfree := h.loose (Nat.le_add_right page j) (by omega) htr
      exact (testBit_iff.mp (h₀.tables.marked _ hindex _ ht)).2 hfree

theorem Installed.owned {p frame f : Nat} (h : Installed m m' p frame) (hf : Owned m f)
    (hother : p < windowPage ∨ f ≠ frame) : Owned m' f := by
  have hpmm : m'.pmm.totalPages = m.pmm.totalPages ∧ ∀ b, Free m'.pmm b → Free m.pmm b := by
    cases h.grant with
    | kept _ hsame =>
        rw [hsame]
        exact ⟨rfl, fun _ hb => hb⟩
    | added t _ ht _ => exact ⟨ht.total_eq, fun b hb => ((ht.free_iff b).mp hb).1⟩
  refine ⟨hf.pos, by rw [hpmm.1]; exact hf.lt, fun hfree => hf.taken (hpmm.2 f hfree), ?_, ?_⟩
  · intro k hk htable
    rcases h.tables k hk f htable with hold | hfree | ⟨hwin, heq⟩
    · exact hf.noTable k hk hold
    · exact hf.taken hfree
    · rcases hother with hbelow | hne
      · exact absurd hwin (not_le.mpr hbelow)
      · exact hne heq
  · rw [h.cr3]
    exact hf.noDirectory

theorem Installed.ne_window (hm : Booted m) {p frame : Nat} (h : Installed m m' p frame)
    (howned : Owned m frame) : p ≠ windowPage := by
  rintro rfl
  obtain ⟨t, ht⟩ := Option.ne_none_iff_exists'.mp hm.firstTable
  have htr := (hm.tr_window (q := windowPage) le_rfl (by decide)).trans ht
  rcases h.before with hnone | hsome
  · rw [htr] at hnone
    cases hnone
  · rw [htr] at hsome
    cases hsome
    exact howned.noTable 0 (by decide) ht

theorem Wiped.owned (h : Wiped m m' page i) {f : Nat} (hf : Owned m f) : Owned m' f := by
  refine ⟨hf.pos, by rw [h.pmm]; exact hf.lt, by rw [h.pmm]; exact hf.taken,
    fun k hk htable => hf.noTable k hk (h.tables k hk f htable), ?_⟩
  rw [h.cr3]
  exact hf.noDirectory

/-- The rollback of `vmm_map_pages`. -/
theorem unmapFirst_wiped (h : Sound m) {virt : Nat} (haligned : virt % 4096 = 0)
    (hlast : virt / 4096 + i < pageLimit) :
    ∃ m', unmapFirst virt i m = some m' ∧ Wiped m m' (virt / 4096) i := by
  induction i with
  | zero => exact ⟨m, rfl, Wiped.start h _⟩
  | succ i ih =>
      obtain ⟨m₁, hrun, hw⟩ := ih (by omega)
      have hpage : (virt + i * 4096) / 4096 = virt / 4096 + i := by omega
      unfold pageLimit at hlast
      have hwrap : wrap (virt + i * 4096) = virt + i * 4096 := wrap_of_lt (by omega)
      obtain ⟨st, m₂, hlastRun, hc⟩ := @vmmUnmapPage_anywhere _ hw.sound (virt + i * 4096)
        (by rw [hpage]; unfold pageLimit; omega)
      rw [hpage] at hc
      refine ⟨m₂, ?_, hw.clear (by unfold pageLimit; omega) hc⟩
      rw [unmapFirst, hrun]
      simp only [Option.bind_eq_bind, Option.bind_some, hwrap]
      rw [hlastRun]
      rfl

end Runs

/-- Since `m₀` no frame was given back, and the pages of `P` that were present in `m₀` kept
their translations. -/
structure Spared (P : Set Nat) (m₀ m : Machine) : Prop where
  booted : Booted m
  free : ∀ f, Free m.pmm f → Free m₀.pmm f
  tr : ∀ q ∈ P, q < pageLimit → ∀ f, m₀.tr q = some f → m.tr q = some f

section Protection

variable {P D : Set Nat} {m₀ m m' : Machine}

theorem Spared.refl (P : Set Nat) (h : Booted m) : Spared P m m := ⟨h, fun _ hf => hf, fun _ _ _ _ hf => hf⟩

/-- Protected pages of `D` must not be mapped to free frames. -/
theorem Spared.quiet (h : Spared P m₀ m) (hq : Quiet D m m')
    (hfirm : ∀ q ∈ P, q ∈ D → ∀ f, m₀.tr q = some f → ¬ Free m₀.pmm f) : Spared P m₀ m' := by
  refine ⟨hq.booted h.booted, fun f hf => h.free f (hq.free f hf), ?_⟩
  intro q hP hlt f hf
  rcases hq.kept q hlt f (h.tr q hP hlt f hf) with hf' | ⟨hD, hfree⟩
  · exact hf'
  · exact absurd (h.free f hfree) (hfirm q hP hD f hf)

/-- A page may be unmapped that takes away no protected page, and the first page of the window
is protected, which shows the first page table. -/
theorem Spared.clear (h₀ : Booted m₀) (h : Spared P m₀ m) (hwindow : windowPage ∈ P) {p : Nat}
    (hc : Cleared m m' p) (hloose : ∀ q ∈ P, q < pageLimit → Touches p q → m₀.tr q = none) : Spared P m₀ m' := by
  refine ⟨⟨hc.sound, ?_⟩, fun f hf => h.free f (by rw [← hc.pmm]; exact hf), ?_⟩
  · have hlt : windowPage < pageLimit := by decide
    have hnot : ¬ Touches p windowPage := by
      intro htouch
      exact h₀.firstTable ((h₀.tr_window le_rfl hlt).symm.trans (hloose windowPage hwindow hlt htouch))
    have htr := hc.stay _ hlt hnot
    rw [hc.sound.tr_window le_rfl hlt, h.booted.tr_window le_rfl hlt] at htr
    rw [show (0 : Nat) = windowPage % 1024 from rfl, htr]
    exact h.booted.firstTable
  · intro q hP hlt f hf
    rw [hc.stay q hlt]
    · exact h.tr q hP hlt f hf
    · intro htouch
      rw [hloose q hP hlt htouch] at hf
      cases hf

end Protection

end Frostix.Vmm
