import Frostix.Vmm.AnyPage

/-!
`vmm_map_pages` maps a range page by page and unmaps the pages before the one that fails.
Whether a page can be mapped is known before the call: it must not be mapped to another
frame, and the free frames must do for the page tables that the range needs up to it.

A page that was mapped to its own frame before the call is mapped again without complaint,
so undoing the pages before a failure also takes away what the call did not bring. -/
namespace Frostix.Vmm
open Machine32 Pmm

/-- The page tables that the pages from `lo` to `hi` need and do not have. -/
def missingTables (m : Machine) (lo hi : Nat) : Finset Nat :=
  ((Finset.Ico lo hi).image (· / 1024)).filter fun k => m.table k = none

/-- A range that begins at page `lo` cannot get past `page`, which goes to `frame`. -/
def Stops (m : Machine) (lo page frame : Nat) : Prop :=
  (∃ f, m.tr page = some f ∧ f ≠ frame) ∨ m.pmm.freePages < (missingTables m lo (page + 1)).card

/-- The number of pages that are mapped before something is in the way. -/
structure Reaches (m : Machine) (lo : Nat) (g : Nat → Nat) (count n : Nat) : Prop where
  le : n ≤ count
  clear : ∀ j < n, ¬ Stops m lo (lo + j) (g (lo + j))
  stop : n < count → Stops m lo (lo + n) (g (lo + n))

/-- From `m` to `m'` the pages from `lo` to `hi` were mapped, page `q` to `g q`. -/
structure MappedRange (m m' : Machine) (lo hi : Nat) (g : Nat → Nat) : Prop where
  sound : Sound m'
  cr3 : m'.cr3 = m.cr3
  before : ∀ q, lo ≤ q → q < hi → m.tr q = none ∨ m.tr q = some (g q)
  tr : ∀ q < windowPage, m'.tr q = if lo ≤ q ∧ q < hi then some (g q) else m.tr q
  tables : ∀ k < 1024, k ∉ missingTables m lo hi → m'.table k = m.table k
  spent : m'.pmm.freePages + (missingTables m lo hi).card = m.pmm.freePages
  pmm : missingTables m lo hi = ∅ → m'.pmm = m.pmm

/-- From `m` to `m'` the pages from `lo` to `hi` were unmapped. -/
structure UnmappedRange (m m' : Machine) (lo hi : Nat) : Prop where
  enabled : m'.pagingEnabled = m.pagingEnabled
  cr3 : m'.cr3 = m.cr3
  pmm : m'.pmm = m.pmm
  directory : ∀ k, m'.word m.cr3 k = m.word m.cr3 k
  tr : ∀ q < windowPage, m'.tr q = if lo ≤ q ∧ q < hi then none else m.tr q

section Ranges
variable {m₀ m m' : Machine} {lo hi : Nat} {g : Nat → Nat}

@[simp] theorem mem_missingTables {k : Nat} :
    k ∈ missingTables m lo hi ↔ (∃ q, (lo ≤ q ∧ q < hi) ∧ q / 1024 = k) ∧ m.table k = none := by
  simp [missingTables]

theorem missingTables_empty (m : Machine) (lo : Nat) : missingTables m lo lo = ∅ := by
  simp [missingTables]

theorem missingTables_succ (m : Machine) (hle : lo ≤ hi) :
    missingTables m lo (hi + 1) =
      if m.table (hi / 1024) = none then insert (hi / 1024) (missingTables m lo hi)
      else missingTables m lo hi := by
  rw [missingTables, Nat.Ico_succ_right_eq_insert_Ico hle, Finset.image_insert, Finset.filter_insert]
  rfl

theorem MappedRange.refl (h : Sound m) (lo : Nat) (g : Nat → Nat) : MappedRange m m lo lo g := by
  refine ⟨h, rfl, fun q hlo hhi => absurd hlo (not_le.mpr hhi), ?_, fun _ _ _ => rfl, ?_, fun _ => rfl⟩
  · intro q _
    rw [if_neg fun hc => absurd hc.1 (not_le.mpr hc.2)]
  · rw [missingTables_empty, Finset.card_empty, Nat.add_zero]

theorem MappedRange.table_ne_none (h : MappedRange m m' lo hi g) {q : Nat} (hlo : lo ≤ q) (hhi : q < hi)
    (hq : q < windowPage) : m'.table (q / 1024) ≠ none := by
  intro hnone
  have htr := h.tr q hq
  rw [if_pos ⟨hlo, hhi⟩, tr_of_no_table hnone] at htr
  cases htr

theorem MappedRange.table_eq_some (h : MappedRange m m' lo hi g) {k f : Nat} (hk : k < 1024)
    (hf : m.table k = some f) : m'.table k = some f := by
  rw [h.tables k hk, hf]
  rw [mem_missingTables, hf]
  exact fun hc => Option.some_ne_none f hc.2

theorem MappedRange.table_changes_iff (h : MappedRange m m' lo hi g) (hw : hi ≤ windowPage) {k : Nat}
    (hk : k < 1024) : m'.table k ≠ m.table k ↔ k ∈ missingTables m lo hi := by
  constructor
  · intro hne
    by_contra hnot
    exact hne (h.tables k hk hnot)
  · intro hmem heq
    obtain ⟨⟨q, ⟨hlo, hhi⟩, rfl⟩, hnone⟩ := mem_missingTables.mp hmem
    exact h.table_ne_none hlo hhi (lt_of_lt_of_le hhi hw) (heq.trans hnone)

/-- One more page is mapped. -/
theorem MappedRange.snoc (h : MappedRange m₀ m lo hi g) (hle : lo ≤ hi) (hw : hi < windowPage)
    (hm : Mapped m m' hi (g hi)) : MappedRange m₀ m' lo (hi + 1) g := by
  have hbefore : m₀.tr hi = m.tr hi := by
    rw [h.tr hi hw, if_neg fun hc => lt_irrefl hi hc.2]
  have htr : ∀ q < windowPage, m'.tr q = if lo ≤ q ∧ q < hi + 1 then some (g q) else m₀.tr q := by
    intro q hq
    rw [hm.tr q hq, h.tr q hq]
    by_cases heq : q = hi
    · subst heq
      rw [if_pos rfl, if_pos ⟨hle, Nat.lt_succ_self q⟩]
    · have hiff : (lo ≤ q ∧ q < hi) ↔ (lo ≤ q ∧ q < hi + 1) := by omega
      rw [if_neg heq, if_congr hiff rfl rfl]
  have hbefore' : ∀ q, lo ≤ q → q < hi + 1 → m₀.tr q = none ∨ m₀.tr q = some (g q) := by
    intro q hlo hhi
    rcases Nat.lt_succ_iff_lt_or_eq.mp hhi with hlt | rfl
    · exact h.before q hlo hlt
    · rw [hbefore]
      exact hm.before
  have hdiv : hi / 1024 < 1024 := lt_trans (div_page hw) (by decide)
  have hnew : m'.table (hi / 1024) ≠ none := by
    intro hnone
    have hdone := hm.tr hi hw
    rw [if_pos rfl, tr_of_no_table hnone] at hdone
    cases hdone
  cases hm.tables with
  | kept hpmm htab =>
      -- the page table was there before the call or has come with an earlier page
      have hsame : missingTables m₀ lo (hi + 1) = missingTables m₀ lo hi := by
        rw [missingTables_succ m₀ hle]
        split_ifs with hnone
        · refine Finset.insert_eq_of_mem ?_
          by_contra hnot
          rw [htab _ hdiv, h.tables _ hdiv hnot] at hnew
          exact hnew hnone
        · rfl
      refine ⟨hm.sound, hm.cr3.trans h.cr3, hbefore', htr, ?_, ?_, ?_⟩
      · intro k hk hnot
        rw [hsame] at hnot
        rw [htab k hk, h.tables k hk hnot]
      · rw [hsame, hpmm]
        exact h.spent
      · rw [hsame, hpmm]
        exact h.pmm
  | added f hnone ht htab =>
      have hnot : hi / 1024 ∉ missingTables m₀ lo hi := by
        intro hmem
        obtain ⟨⟨q, ⟨hlo, hhi⟩, hq⟩, -⟩ := mem_missingTables.mp hmem
        exact h.table_ne_none hlo hhi (lt_trans hhi hw) (by rw [hq]; exact hnone)
      have hnone₀ : m₀.table (hi / 1024) = none := by
        rw [← h.tables _ hdiv hnot]
        exact hnone
      have hinsert : missingTables m₀ lo (hi + 1) = insert (hi / 1024) (missingTables m₀ lo hi) := by
        rw [missingTables_succ m₀ hle, if_pos hnone₀]
      refine ⟨hm.sound, hm.cr3.trans h.cr3, hbefore', htr, ?_, ?_, ?_⟩
      · intro k hk hk'
        rw [hinsert, Finset.mem_insert, not_or] at hk'
        rw [htab k hk, if_neg hk'.1, h.tables k hk hk'.2]
      · have hspent := h.spent
        have htake := ht.freePages_eq
        rw [hinsert, Finset.card_insert_of_notMem hnot]
        omega
      · intro hempty
        rw [hinsert] at hempty
        exact absurd hempty (Finset.insert_ne_empty _ _)

/-- The next page: whether it can be mapped was settled before the call. -/
theorem MappedRange.next (h : MappedRange m₀ m lo hi g) (hle : lo ≤ hi) (hw : hi < windowPage)
    {virt phys flags : Nat} (hvirt : virt / 4096 = hi) (hphys : phys / 4096 = g hi) (hp : phys < 2 ^ 32)
    (hflags : flags % 2 = 1) :
    (Stops m₀ lo hi (g hi) ∧ ∃ st, st ≠ .ok ∧ vmmMapPage m virt phys flags = some (st, m)) ∨
      (¬ Stops m₀ lo hi (g hi) ∧
        ∃ m', vmmMapPage m virt phys flags = some (.ok, m') ∧ MappedRange m₀ m' lo (hi + 1) g) := by
  have hindex : pdIndex virt = hi / 1024 := by rw [pdIndex_eq, hvirt]
  have hlt : pdIndex virt < 1023 := by
    rw [hindex]
    exact div_page hw
  have hbefore : m.tr hi = m₀.tr hi := by
    rw [h.tr hi hw, if_neg fun hc => lt_irrefl hi hc.2]
  have hspent := h.spent
  rcases vmmMapPage_spec h.sound hlt hp hflags with ⟨hother, hrun⟩ | ⟨hnone, hfull, hrun⟩ |
    ⟨-, m', hrun, hm⟩
  · rw [hvirt, hphys, hbefore] at hother
    exact Or.inl ⟨Or.inl hother, _, by decide, hrun⟩
  · left
    refine ⟨Or.inr ?_, _, by decide, hrun⟩
    rw [hindex] at hnone
    have hzero : m.pmm.freePages = 0 := by
      rw [h.sound.pmm.free_count, Finset.card_eq_zero]
      exact Finset.eq_empty_of_forall_notMem fun b hb => hfull b (mem_freeSet.mp hb)
    have hnot : hi / 1024 ∉ missingTables m₀ lo hi := by
      intro hmem
      obtain ⟨⟨q, ⟨hlo, hhi⟩, hq⟩, -⟩ := mem_missingTables.mp hmem
      exact h.table_ne_none hlo hhi (lt_trans hhi hw) (by rw [hq]; exact hnone)
    have hnone₀ : m₀.table (hi / 1024) = none := by
      rw [← h.tables _ (by rw [← hindex]; omega) hnot]
      exact hnone
    rw [missingTables_succ m₀ hle, if_pos hnone₀, Finset.card_insert_of_notMem hnot]
    omega
  · rw [hvirt, hphys] at hm
    have hnext := h.snoc hle hw hm
    refine Or.inr ⟨?_, m', hrun, hnext⟩
    rintro (⟨f, hf, hne⟩ | hfew)
    · rcases hnext.before hi hle (Nat.lt_succ_self hi) with hb | hb
      · rw [hb] at hf
        cases hf
      · rw [hb] at hf
        exact hne (Option.some.inj hf).symm
    · have hspent' := hnext.spent
      omega

theorem UnmappedRange.refl (m : Machine) (lo : Nat) : UnmappedRange m m lo lo := by
  refine ⟨rfl, rfl, rfl, fun _ => rfl, fun q _ => ?_⟩
  rw [if_neg fun hc => absurd hc.1 (not_le.mpr hc.2)]

theorem UnmappedRange.table (h : UnmappedRange m m' lo hi) (k : Nat) : m'.table k = m.table k := by
  unfold Machine.table
  rw [h.cr3, h.directory]

theorem UnmappedRange.distinct (hu : UnmappedRange m m' lo hi) (h : Distinct m) : Distinct m' := by
  refine ⟨hu.enabled.trans h.enabled, ?_, ?_, ?_⟩
  · rw [hu.table, hu.cr3]
    exact h.selfMap
  · simp only [hu.table]
    exact h.apart
  · simp only [hu.table, hu.cr3]
    exact h.notDirectory

theorem UnmappedRange.sound (hu : UnmappedRange m m' lo hi) (h : Sound m) : Sound m' := by
  have hd := hu.distinct h.distinct
  refine ⟨hd.enabled, by rw [hu.pmm]; exact h.pmm, ⟨hd.selfMap, ?_, hd.apart, hd.notDirectory⟩, ?_⟩
  · simp only [hu.table, hu.pmm]
    exact h.tables.marked
  · rw [hu.pmm, hu.cr3]
    exact h.directory

theorem UnmappedRange.snoc (hu : UnmappedRange m₀ m lo hi) (h : Distinct m) (hle : lo ≤ hi)
    (hw : hi < windowPage)
    {f : Nat} (hf : m.table (hi / 1024) = some f) (hgone : (m.setWord f (hi % 1024) 0).tr hi = none) :
    UnmappedRange m₀ (m.setWord f (hi % 1024) 0) lo (hi + 1) := by
  obtain ⟨hword, htr⟩ := h.setEntry hw hf 0
  refine ⟨hu.enabled, hu.cr3, hu.pmm, ?_, ?_⟩
  · intro k
    rw [hu.cr3] at hword
    rw [hword, hu.directory]
  · intro q hq
    by_cases heq : q = hi
    · rw [heq, hgone, if_pos ⟨hle, Nat.lt_succ_self hi⟩]
    · rw [htr q hq heq, hu.tr q hq]
      exact if_congr (by omega) rfl rfl

theorem UnmappedRange.skip (hu : UnmappedRange m₀ m lo hi) (hle : lo ≤ hi) (hnone : m.tr hi = none) :
    UnmappedRange m₀ m lo (hi + 1) := by
  refine ⟨hu.enabled, hu.cr3, hu.pmm, hu.directory, ?_⟩
  intro q hq
  by_cases heq : q = hi
  · rw [heq, hnone, if_pos ⟨hle, Nat.lt_succ_self hi⟩]
  · rw [hu.tr q hq]
    exact if_congr (by omega) rfl rfl

/-- The rollback of `vmm_map_pages`. -/
theorem unmapFirst_range (h : Distinct m) {virt n : Nat} (hw : virt / 4096 + n ≤ windowPage) :
    ∃ m', unmapFirst virt n m = some m' ∧ UnmappedRange m m' (virt / 4096) (virt / 4096 + n) := by
  induction n with
  | zero => exact ⟨m, rfl, UnmappedRange.refl m _⟩
  | succ n ih =>
      obtain ⟨m₁, hrun, hu⟩ := ih (by omega)
      have hpage : (virt + n * 4096) / 4096 = virt / 4096 + n := by omega
      have hwrap : wrap (virt + n * 4096) = virt + n * 4096 := by
        unfold windowPage at hw
        exact wrap_of_lt (by omega)
      have hindex : pdIndex (virt + n * 4096) < 1023 := by
        rw [pdIndex_eq, hpage]
        exact div_page (by omega)
      have hspec := (hu.distinct h).vmmUnmapPage_spec hindex
      rw [hpage] at hspec
      rw [unmapFirst, hrun, hwrap]
      simp only [Option.bind_eq_bind, Option.bind_some]
      rcases hspec with ⟨hnone, hlast⟩ | ⟨-, f, hf, hlast, hgone⟩
      · rw [hlast]
        exact ⟨m₁, rfl, hu.skip (Nat.le_add_right _ n) hnone⟩
      · rw [hlast]
        exact ⟨_, rfl, hu.snoc (hu.distinct h) (Nat.le_add_right _ n) (by omega) hf hgone⟩

/-- The loop of `vmm_map_pages` from page `i` on. -/
theorem mapPagesFrom_range {virt phys flags count : Nat} (hflags : flags % 2 = 1)
    (hv : virt / 4096 + count ≤ windowPage) (hp : phys / 4096 + count ≤ 2 ^ 20)
    (hg : ∀ j < count, g (virt / 4096 + j) = phys / 4096 + j) (left : Nat) :
    ∀ i m, i + left = count → MappedRange m₀ m (virt / 4096) (virt / 4096 + i) g →
      (∀ j < i, ¬ Stops m₀ (virt / 4096) (virt / 4096 + j) (g (virt / 4096 + j))) →
      ∃ n status m', Reaches m₀ (virt / 4096) g count n ∧
        mapPagesFrom virt phys flags left i m = some (status, m') ∧
        (n = count ∧ status = .ok ∧ MappedRange m₀ m' (virt / 4096) (virt / 4096 + n) g ∨
          n < count ∧ status ≠ .ok ∧ ∃ m₁, MappedRange m₀ m₁ (virt / 4096) (virt / 4096 + n) g ∧
            UnmappedRange m₁ m' (virt / 4096) (virt / 4096 + n)) := by
  induction left with
  | zero =>
      intro i m hi hmapped hclear
      obtain rfl : i = count := hi
      exact ⟨i, .ok, m, ⟨le_rfl, hclear, fun hlt => absurd hlt (lt_irrefl i)⟩, rfl, Or.inl ⟨rfl, rfl, hmapped⟩⟩
  | succ left ih =>
      intro i m hi hmapped hclear
      have hin : i < count := by omega
      have hpageV : (virt + i * 4096) / 4096 = virt / 4096 + i := by omega
      have hpageP : (phys + i * 4096) / 4096 = phys / 4096 + i := by omega
      have hwrapV : wrap (virt + i * 4096) = virt + i * 4096 := by
        unfold windowPage at hv
        exact wrap_of_lt (by omega)
      have hwrapP : wrap (phys + i * 4096) = phys + i * 4096 := wrap_of_lt (by omega)
      rw [mapPagesFrom, hwrapV, hwrapP]
      rcases hmapped.next (Nat.le_add_right _ i) (by omega) hpageV (hpageP.trans (hg i hin).symm) (by omega)
          hflags with ⟨hstop, st, hst, hrun⟩ | ⟨hgo, m', hrun, hnext⟩
      · obtain ⟨m', hback, hun⟩ := @unmapFirst_range m hmapped.sound.distinct virt i (by omega)
        rw [hrun]
        simp only [Option.bind_eq_bind, Option.bind_some, if_pos hst]
        rw [hback]
        exact ⟨i, st, m', ⟨hin.le, hclear, fun _ => hstop⟩, rfl, Or.inr ⟨hin, hst, m, hmapped, hun⟩⟩
      · rw [hrun]
        simp only [Option.bind_eq_bind, Option.bind_some, ne_eq, not_true_eq_false, if_false]
        refine ih (i + 1) m' (by omega) hnext ?_
        intro j hj
        rcases Nat.lt_succ_iff_lt_or_eq.mp hj with hlt | rfl
        · exact hclear j hlt
        · exact hgo

end Ranges

/-- All or nothing, as far as the pages below `limit` show: the whole range is mapped and
nothing else has changed, or an error is returned and nothing has changed. -/
def MapsOrRestores (limit : Nat) (m : Machine) (page frame count : Nat) (status : KernelStatus)
    (m' : Machine) : Prop :=
  (status = .ok ∧ (∀ i < count, m'.tr (page + i) = some (frame + i)) ∧
      ∀ q < limit, ¬ (page ≤ q ∧ q < page + count) → m'.tr q = m.tr q) ∨
    status ≠ .ok ∧ ∀ q < limit, m'.tr q = m.tr q

/-- The frame of page `q` when `page` goes to `frame`. -/
def shifted (page frame q : Nat) : Nat := frame + (q - page)

section Window
variable {m m' m₁ : Machine} {lo hi : Nat} {g : Nat → Nat}

theorem window_same_iff (h : Sound m) (h' : Sound m') :
    (∀ q, windowPage ≤ q → q < pageLimit → m'.tr q = m.tr q) ↔ ∀ k < 1024, m'.table k = m.table k := by
  constructor
  · intro hall k hk
    have hq := hall (windowPage + k) (Nat.le_add_right _ k) (by unfold windowPage pageLimit; omega)
    have hmod : (windowPage + k) % 1024 = k := by
      unfold windowPage
      omega
    rw [h'.tr_window (Nat.le_add_right _ k) (by unfold windowPage pageLimit; omega),
      h.tr_window (Nat.le_add_right _ k) (by unfold windowPage pageLimit; omega), hmod] at hq
    exact hq
  · intro hall q hlo hhi
    rw [h'.tr_window hlo hhi, h.tr_window hlo hhi]
    exact hall _ (Nat.mod_lt _ (by decide))

theorem mapsOrRestores_limit_iff (h : Sound m) (h' : Sound m') {page frame count : Nat} {status : KernelStatus}
    (hw : page + count ≤ windowPage) :
    MapsOrRestores pageLimit m page frame count status m' ↔
      MapsOrRestores windowPage m page frame count status m' ∧ ∀ k < 1024, m'.table k = m.table k := by
  rw [← window_same_iff h h']
  have hlimit : windowPage ≤ pageLimit := by decide
  constructor
  · rintro (⟨hok, hdone, hrest⟩ | ⟨herr, hrest⟩)
    · refine ⟨Or.inl ⟨hok, hdone, fun q hq => hrest q (lt_of_lt_of_le hq hlimit)⟩, fun q hlo hhi => ?_⟩
      exact hrest q hhi fun hc => by omega
    · exact ⟨Or.inr ⟨herr, fun q hq => hrest q (lt_of_lt_of_le hq hlimit)⟩, fun q _ hhi => hrest q hhi⟩
  · rintro ⟨⟨hok, hdone, hrest⟩ | ⟨herr, hrest⟩, hwin⟩
    · refine Or.inl ⟨hok, hdone, fun q hq hout => ?_⟩
      rcases Nat.lt_or_ge q windowPage with hlt | hge
      · exact hrest q hlt hout
      · exact hwin q hge hq
    · refine Or.inr ⟨herr, fun q hq => ?_⟩
      rcases Nat.lt_or_ge q windowPage with hlt | hge
      · exact hrest q hlt
      · exact hwin q hge hq

theorem MappedRange.tables_same_iff (h : MappedRange m m₁ lo hi g) (hw : hi ≤ windowPage)
    (hsame : ∀ k < 1024, m'.table k = m₁.table k) :
    (∀ k < 1024, m'.table k = m.table k) ↔ missingTables m lo hi = ∅ := by
  constructor
  · intro hall
    refine Finset.eq_empty_of_forall_notMem fun k hmem => ?_
    obtain ⟨⟨q, ⟨-, hhi⟩, hq⟩, -⟩ := mem_missingTables.mp hmem
    have hk : k < 1024 := by
      unfold windowPage at hw
      omega
    exact (h.table_changes_iff hw hk).mpr hmem ((hsame k hk).symm.trans (hall k hk))
  · intro hempty k hk
    rw [hsame k hk]
    exact h.tables k hk (by rw [hempty]; exact Finset.notMem_empty k)

theorem MappedRange.undone_iff (h : MappedRange m m₁ lo hi g) (hu : UnmappedRange m₁ m' lo hi)
    (hw : hi ≤ windowPage) :
    (∀ q < windowPage, m'.tr q = m.tr q) ↔ ∀ q, lo ≤ q → q < hi → m.tr q = none := by
  constructor
  · intro hall q hlo hhi
    rw [← hall q (lt_of_lt_of_le hhi hw), hu.tr q (lt_of_lt_of_le hhi hw), if_pos ⟨hlo, hhi⟩]
  · intro hnone q hq
    rw [hu.tr q hq]
    split_ifs with hin
    · exact (hnone q hin.1 hin.2).symm
    · rw [h.tr q hq, if_neg hin]

end Window

/-- The pages below the window are restored exactly if none of those that the rollback
unmaps was mapped before the call. The pages of the window show the page tables; for them
no page table must have been missing. -/
theorem vmm_map_pages_restores_iff {m : Machine} (h : Sound m) {virt phys count flags : Nat}
    (hv : virt / 4096 + count ≤ windowPage) (hp : phys / 4096 + count ≤ 2 ^ 20) (hflags : flags % 2 = 1) :
    ∃ n status m', Reaches m (virt / 4096) (shifted (virt / 4096) (phys / 4096)) count n ∧
      vmmMapPages m virt phys count flags = some (status, m') ∧
      (MapsOrRestores windowPage m (virt / 4096) (phys / 4096) count status m' ↔
        (n < count → ∀ j < n, m.tr (virt / 4096 + j) = none)) ∧
      (MapsOrRestores pageLimit m (virt / 4096) (phys / 4096) count status m' ↔
        (n < count → ∀ j < n, m.tr (virt / 4096 + j) = none) ∧
          missingTables m (virt / 4096) (virt / 4096 + n) = ∅) := by
  have hg : ∀ j < count, shifted (virt / 4096) (phys / 4096) (virt / 4096 + j) = phys / 4096 + j := by
    intro j _
    rw [shifted, Nat.add_sub_cancel_left]
  obtain ⟨n, status, m', hreach, hrun, hend⟩ := mapPagesFrom_range hflags hv hp hg count 0 m (Nat.zero_add _)
    (MappedRange.refl h _ _) nofun
  have hle := hreach.le
  refine ⟨n, status, m', hreach, hrun, ?_⟩
  rcases hend with ⟨hn, hok, hmapped⟩ | ⟨hlt, herr, m₁, hmapped, hun⟩
  · have hmaps : MapsOrRestores windowPage m (virt / 4096) (phys / 4096) count status m' := by
      refine Or.inl ⟨hok, ?_, ?_⟩
      · intro i hi
        rw [hmapped.tr _ (by omega), if_pos (by omega), hg i hi]
      · intro q hq hout
        rw [hmapped.tr q hq, if_neg (by rw [hn]; exact hout)]
    rw [mapsOrRestores_limit_iff h hmapped.sound hv, hmapped.tables_same_iff (by omega) fun _ _ => rfl]
    have hvac : n < count → ∀ j < n, m.tr (virt / 4096 + j) = none := fun hc => absurd hn hc.ne
    exact ⟨iff_of_true hmaps hvac, and_congr (iff_of_true hmaps hvac) Iff.rfl⟩
  · have hback : MapsOrRestores windowPage m (virt / 4096) (phys / 4096) count status m' ↔
        (n < count → ∀ j < n, m.tr (virt / 4096 + j) = none) := by
      rw [MapsOrRestores, or_iff_right fun hc => herr hc.1, and_iff_right herr,
        hmapped.undone_iff hun (by omega)]
      constructor
      · intro hnone _ j hj
        exact hnone _ (Nat.le_add_right _ j) (by omega)
      · intro hnone q hlo hhi
        obtain ⟨j, rfl⟩ := Nat.exists_eq_add_of_le hlo
        exact hnone hlt j (by omega)
    rw [mapsOrRestores_limit_iff h (hun.sound hmapped.sound) hv,
      hmapped.tables_same_iff (by omega) fun k _ => hun.table k]
    exact ⟨hback, and_congr hback Iff.rfl⟩

def twoPageMachine : Machine where
  pmm :=
    { bitsAddr := 0x200000, bits := fun _ => 0x6B#8, size := 1, totalPages := 8
      freePages := 3, usedPages := 5 }
  frames f i :=
    if f = 5 ∧ i = 1023 then 0x5003#32
    else if f = 5 ∧ i = 0 then 0x6003#32
    else if f = 6 ∧ i = 1 then 0x1003#32
    else if f = 6 ∧ i = 2 then 0x3003#32 else 0
  cr3 := 5
  kernelPageDirectory := 5
  pagingEnabled := true

theorem twoPageMachine_table {i : Nat} (hi : i < 1023) :
    twoPageMachine.table i = if i = 0 then some 6 else none := by
  split_ifs with h
  · rw [h]
    decide
  · have hword : twoPageMachine.word 5 i = 0 := by
      simp [Machine.word, twoPageMachine, hi.ne, h]
    rw [Machine.table, show twoPageMachine.cr3 = 5 from rfl, hword]
    rfl

theorem twoPageMachine_sound : Sound twoPageMachine := by
  refine ⟨rfl, ⟨by decide, by decide, by decide, ?_, by decide, by decide⟩, ⟨by decide, ?_, ?_, ?_⟩, by decide⟩
  · intro b hb hbs
    exact absurd hbs (Nat.not_lt.mpr hb)
  · intro i hi f hf
    rw [twoPageMachine_table hi] at hf
    split_ifs at hf
    cases hf
    decide
  · intro i hi j hj f hf hf'
    rw [twoPageMachine_table hi] at hf
    rw [twoPageMachine_table hj] at hf'
    split_ifs at hf hf' with h h'
    rw [h, h']
  · intro i hi hf
    rw [twoPageMachine_table hi] at hf
    split_ifs at hf
    exact absurd hf (by decide)

/-- Pages 1 and 2 are to go to the frames 1 and 2. Page 2 is refused, and the rollback
unmaps page 1, which was mapped before. -/
theorem vmm_map_pages_loses_page :
    Sound twoPageMachine ∧ ∃ m', vmmMapPages twoPageMachine 0x1000 0x1000 2 3 = some (.alreadyMapped, m') ∧
      twoPageMachine.tr 1 = some 1 ∧ m'.tr 1 = none ∧
      ¬ MapsOrRestores windowPage twoPageMachine 1 1 2 .alreadyMapped m' := by
  have hrun : (vmmMapPages twoPageMachine 0x1000 0x1000 2 3).map (fun r => (r.1, r.2.tr 1)) =
      some (.alreadyMapped, none) := by decide
  obtain ⟨⟨status, m'⟩, hm', heq⟩ := Option.map_eq_some_iff.mp hrun
  obtain ⟨rfl, hgone⟩ := Prod.mk.inj heq
  refine ⟨twoPageMachine_sound, m', hm', by decide, hgone, ?_⟩
  rintro (⟨hok, -⟩ | ⟨-, hsame⟩)
  · cases hok
  · have htr := hsame 1 (by decide)
    rw [hgone] at htr
    exact absurd htr (by decide)

theorem vmm_map_pages_restores_two :
    ∃ n status m', Reaches twoPageMachine (0x1000 / 4096) (shifted (0x1000 / 4096) (0x1000 / 4096)) 2 n ∧
      vmmMapPages twoPageMachine 0x1000 0x1000 2 3 = some (status, m') ∧
      (MapsOrRestores windowPage twoPageMachine (0x1000 / 4096) (0x1000 / 4096) 2 status m' ↔
        (n < 2 → ∀ j < n, twoPageMachine.tr (0x1000 / 4096 + j) = none)) ∧
      (MapsOrRestores pageLimit twoPageMachine (0x1000 / 4096) (0x1000 / 4096) 2 status m' ↔
        (n < 2 → ∀ j < n, twoPageMachine.tr (0x1000 / 4096 + j) = none) ∧
          missingTables twoPageMachine (0x1000 / 4096) (0x1000 / 4096 + n) = ∅) :=
  vmm_map_pages_restores_iff twoPageMachine_sound (by decide) (by decide) (by decide)

end Frostix.Vmm
