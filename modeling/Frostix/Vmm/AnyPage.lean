import Frostix.Vmm.Translation

/-!
The mapping functions on any page, also on pages of the recursive window. Mapping such a
page enters its frame as a page table, and unmapping it takes a page table out of the
directory, with everything that was translated through it. -/
namespace Frostix.Vmm
open Machine32 Pmm

/-- The number of virtual pages; the last one shows the directory itself. -/
def pageLimit : Nat := 2 ^ 20

/-- What unmapping page `p` may take away: the page, and below a page of the window the
four megabytes of its page table. -/
def Touches (p q : Nat) : Prop := q = p ∨ windowPage ≤ p ∧ q / 1024 = p % 1024

/-- A frame in use that is neither a page table nor the directory. -/
structure Owned (m : Machine) (f : Nat) : Prop where
  pos : 0 < f
  lt : f < m.pmm.totalPages
  taken : ¬ Free m.pmm f
  noTable : ∀ k < 1023, m.table k ≠ some f
  noDirectory : f ≠ m.cr3

inductive TableGrant (m m' : Machine) (i : Nat) : Prop
  | kept : m.table i ≠ none → m'.pmm = m.pmm → TableGrant m m' i
  | added (f : Nat) : m.table i = none → Taken m.pmm m'.pmm f 1 → m'.table i ≠ none → TableGrant m m' i

/-- The effect of mapping page `p` to `frame`, wherever the page is. -/
structure Installed (m m' : Machine) (p frame : Nat) : Prop where
  sound : Sound m'
  cr3 : m'.cr3 = m.cr3
  before : m.tr p = none ∨ m.tr p = some frame
  done : m'.tr p = some frame
  stay : ∀ q < pageLimit, q ≠ p → ∀ f, m.tr q = some f → m'.tr q = some f
  empty : ∀ q < pageLimit, q ≠ p → (q < windowPage ↔ p < windowPage) → m.tr q = none → m'.tr q = none
  tables : ∀ k < 1023, ∀ f, m'.table k = some f →
    m.table k = some f ∨ Free m.pmm f ∨ windowPage ≤ p ∧ f = frame
  others : p < windowPage → ∀ k < 1024, k ≠ p / 1024 → m'.table k = m.table k
  grant : TableGrant m m' (p / 1024)

/-- The effect of unmapping page `p`, wherever it is. -/
structure Cleared (m m' : Machine) (p : Nat) : Prop where
  sound : Sound m'
  cr3 : m'.cr3 = m.cr3
  pmm : m'.pmm = m.pmm
  gone : m'.tr p = none
  stay : ∀ q < pageLimit, ¬ Touches p q → m'.tr q = m.tr q
  fewer : ∀ q < pageLimit, ∀ f, m'.tr q = some f → m.tr q = some f
  tables : ∀ k < 1023, ∀ f, m'.table k = some f → m.table k = some f

variable {m : Machine}

theorem Sound.tr_window (h : Sound m) {q : Nat} (hlo : windowPage ≤ q) (hhi : q < pageLimit) :
    m.tr q = m.table (q % 1024) := by
  have hdiv : q / 1024 = 1023 := by
    unfold windowPage at hlo
    unfold pageLimit at hhi
    omega
  rw [tr_of_table (f := m.cr3) (by rw [hdiv]; exact h.tables.selfMap)]
  rfl

theorem windowPage_add {i : Nat} (hi : i < 1023) :
    windowPage + i < pageLimit ∧ (windowPage + i) % 1024 = i := by
  unfold windowPage pageLimit
  omega

theorem Sound.tr_setWindow (h : Sound m) {m' : Machine} (hm' : Sound m') {i : Nat} (hi : i < 1023)
    {entry : Option Nat} (hone : ∀ k, m'.table k = if k = i then entry else m.table k) {q : Nat}
    (hlo : windowPage ≤ q) (hhi : q < pageLimit) :
    m'.tr q = if q = windowPage + i then entry else m.tr q := by
  rw [hm'.tr_window hlo hhi, h.tr_window hlo hhi, hone]
  have hiff : q % 1024 = i ↔ q = windowPage + i := by
    unfold windowPage at hlo ⊢
    unfold pageLimit at hhi
    omega
  rw [if_congr hiff rfl rfl]

theorem table_of_tr {q f : Nat} (h : m.tr q = some f) : ∃ t, m.table (q / 1024) = some t := by
  obtain ⟨t, ht, -⟩ := Option.bind_eq_some_iff.mp h
  exact ⟨t, ht⟩

theorem Owned.testBit (h : Sound m) {f : Nat} (hf : Owned m f) : bitmapTestBit m.pmm f = true :=
  testBit_iff.mpr ⟨lt_of_lt_of_le hf.lt h.pmm.covers, hf.taken⟩

theorem page_lt_limit {virt : Nat} (h : virt < 2 ^ 32) : virt / 4096 < pageLimit := by
  unfold pageLimit
  omega

theorem Mapped.installed (h : Sound m) {m' : Machine} {p frame : Nat} (hp : p < windowPage)
    (hm : Mapped m m' p frame) (hgrant : TableGrant m m' (p / 1024)) : Installed m m' p frame := by
  have hdone := hm.tr p hp
  rw [if_pos rfl] at hdone
  have htables : ∀ k < 1024, ∀ f, m.table k = some f → m'.table k = some f := by
    intro k hk f hf
    rcases hm.tables with ⟨-, hsame⟩ | ⟨t, hnone, -, hadd⟩
    · rw [hsame k hk]
      exact hf
    · rw [hadd k hk]
      split
      · rw [‹k = p / 1024›, hnone] at hf
        cases hf
      · exact hf
  refine ⟨hm.sound, hm.cr3, hm.before, hdone, ?_, ?_, ?_, ?_, hgrant⟩
  · intro q hq hne f hf
    by_cases hbelow : q < windowPage
    · rw [hm.tr q hbelow, if_neg hne]
      exact hf
    · have hlo : windowPage ≤ q := not_lt.mp hbelow
      rw [h.tr_window hlo hq] at hf
      rw [hm.sound.tr_window hlo hq]
      exact htables _ (Nat.mod_lt _ (by decide)) f hf
  · intro q _ hne hside hnone
    rw [hm.tr q (hside.mpr hp), if_neg hne]
    exact hnone
  · intro k hk f hf
    rcases hm.tables with ⟨-, hsame⟩ | ⟨t, -, ht, hadd⟩
    · rw [hsame k (by omega)] at hf
      exact Or.inl hf
    · rw [hadd k (by omega)] at hf
      split at hf
      · cases hf
        exact Or.inr (Or.inl (by simpa using ht.was_free 0 (by decide)))
      · exact Or.inl hf
  · intro _ k hk hne
    rcases hm.tables with ⟨-, hsame⟩ | ⟨t, -, -, hadd⟩
    · exact hsame k hk
    · rw [hadd k hk, if_neg hne]

/-- Entering a frame in use as a page table. -/
theorem Sound.enter (h : Sound m) {i frame phys flags : Nat} (hi : i < 1023) (hnone : m.table i = none)
    (hframe : Owned m frame) (hphys : phys < 2 ^ 32) (hdiv : phys / 4096 = frame) (hflags : flags % 2 = 1) :
    Installed m (m.setWord m.cr3 i (makeEntry phys flags)) (windowPage + i) frame := by
  have hone := table_setDirectory m i (makeEntry phys flags)
  rw [decode_makeEntry hphys hflags, hdiv] at hone
  have htr := fun q hq hne => @Sound.tr_setDirectory m h q i hq hne (makeEntry phys flags)
  have hon : (m.setWord m.cr3 i (makeEntry phys flags)).pagingEnabled = m.pagingEnabled := rfl
  have hcr3 : (m.setWord m.cr3 i (makeEntry phys flags)).cr3 = m.cr3 := rfl
  have hpmm : (m.setWord m.cr3 i (makeEntry phys flags)).pmm = m.pmm := rfl
  generalize m.setWord m.cr3 i (makeEntry phys flags) = m' at hone htr hon hcr3 hpmm
  have hsound : Sound m' := by
    refine h.setTable hi hone hcr3 hon (by rw [hpmm]; exact h.pmm) (by rw [hpmm]; exact fun _ hf => hf) ?_
    rintro _ ⟨rfl⟩
    rw [hpmm]
    exact ⟨hframe.testBit h, hframe.noTable, hframe.noDirectory⟩
  have hwindow := fun q => @Sound.tr_setWindow m h m' hsound i hi _ hone q
  obtain ⟨hp, hmod⟩ := windowPage_add hi
  refine ⟨hsound, hcr3, Or.inl ?_, ?_, ?_, ?_, ?_, fun hbelow => absurd hbelow (by omega), ?_⟩
  · rw [h.tr_window (Nat.le_add_right _ _) hp, hmod]
    exact hnone
  · rw [hwindow _ (Nat.le_add_right _ _) hp, if_pos rfl]
  · intro q hq hne f hf
    by_cases hbelow : q < windowPage
    · -- the page has a table already, which is another one
      obtain ⟨t, ht⟩ := table_of_tr hf
      have hqi : q / 1024 ≠ i := by
        rintro rfl
        rw [hnone] at ht
        cases ht
      rw [htr q hbelow hqi]
      exact hf
    · rw [hwindow q (not_lt.mp hbelow) hq, if_neg hne]
      exact hf
  · intro q hq hne hside hq'
    have hnot : ¬ q < windowPage := fun hlt => absurd (hside.mp hlt) (by omega)
    rw [hwindow q (not_lt.mp hnot) hq, if_neg hne]
    exact hq'
  · intro k _ f hf
    rw [hone] at hf
    split at hf
    · exact Or.inr (Or.inr ⟨Nat.le_add_right _ _, (Option.some.inj hf).symm⟩)
    · exact Or.inl hf
  · refine .kept ?_ hpmm
    have hself := h.tables.selfMap
    rw [show (windowPage + i) / 1024 = 1023 by unfold windowPage; omega, hself]
    exact Option.some_ne_none _

/-- `vmm_map_page` of a frame in use, anywhere. -/
theorem vmmMapPage_anywhere (h : Sound m) {virt phys flags : Nat} (hv : virt < 2 ^ 32) (hp : phys < 2 ^ 32)
    (hframe : Owned m (phys / 4096)) (hflags : flags % 2 = 1) :
    (∃ st, st ≠ .ok ∧ vmmMapPage m virt phys flags = some (st, m) ∧
        ((∃ f, m.tr (virt / 4096) = some f ∧ f ≠ phys / 4096) ∨
          m.table (virt / 4096 / 1024) = none ∧ ∀ b, ¬ Free m.pmm b)) ∨
      ∃ m', vmmMapPage m virt phys flags = some (.ok, m') ∧
        Installed m m' (virt / 4096) (phys / 4096) := by
  by_cases hbelow : pdIndex virt < 1023
  · have hpage := page_lt_window hbelow
    rcases vmmMapPage_spec h hbelow hp hflags with ⟨hother, hrun⟩ | ⟨hnone, hfull, hrun⟩ | ⟨-, m', hrun, hm⟩
    · exact Or.inl ⟨.alreadyMapped, nofun, hrun, Or.inl hother⟩
    · exact Or.inl ⟨.outOfMemory, nofun, hrun, Or.inr ⟨by rw [← pdIndex_eq]; exact hnone, hfull⟩⟩
    · refine Or.inr ⟨m', hrun, hm.installed h hpage ?_⟩
      rcases hm.tables with ⟨hpmm, hsame⟩ | ⟨t, hnone, ht, hadd⟩
      · refine .kept ?_ hpmm
        have hdone := hm.tr _ hpage
        rw [if_pos rfl] at hdone
        obtain ⟨t, ht⟩ := table_of_tr hdone
        rw [← hsame _ (by have := div_page hpage; omega), ht]
        exact Option.some_ne_none t
      · refine .added t hnone ht ?_
        rw [hadd _ (by have := div_page hpage; omega), if_pos rfl]
        exact Option.some_ne_none t
  · have hindex : pdIndex virt = 1023 := by
      unfold pdIndex at hbelow ⊢
      omega
    have hself := h.tables.selfMap
    have hlo : windowPage ≤ virt / 4096 := by
      unfold pdIndex at hindex
      unfold windowPage
      omega
    have htr := h.tr_window hlo (page_lt_limit hv)
    rw [← ptIndex_eq] at htr
    have hpt := ptIndex_lt virt
    obtain ⟨hpresent, -⟩ := decode_eq_some.mp hself
    have hensure : ensureTable m virt = some (.ok, m) := by
      rw [ensureTable, load_pdSlot hself (by omega), hindex]
      simp only [Option.bind_eq_bind, Option.bind_some, hpresent, if_true]
    have htable : m.table (pdIndex virt) = some m.cr3 := by
      rw [hindex]
      exact hself
    unfold vmmMapPage
    rw [if_pos h.enabled, hensure]
    simp only [Option.bind_eq_bind, Option.bind_some, ne_eq, not_true_eq_false, if_false,
      load_ptSlot hself (by omega : pdIndex virt < 1024) htable]
    by_cases hother : present (m.word m.cr3 (ptIndex virt)) = true ∧
        entryFrame (m.word m.cr3 (ptIndex virt)) ≠ phys / 4096
    · rw [if_pos hother]
      exact Or.inl ⟨.alreadyMapped, nofun, rfl,
        Or.inl ⟨_, htr.trans (decode_eq_some.mpr ⟨hother.1, rfl⟩), hother.2⟩⟩
    · rw [if_neg hother, store_ptSlot hself (by omega) htable]
      -- a present entry would name a page table or the directory, and the frame is neither
      have hnone : m.table (ptIndex virt) = none := by
        by_contra hsome
        obtain ⟨t, ht⟩ := Option.ne_none_iff_exists'.mp hsome
        obtain ⟨hpres, hent⟩ := decode_eq_some.mp ht
        have heq : t = phys / 4096 := by
          by_contra hne
          exact hother ⟨hpres, by rw [hent]; exact hne⟩
        rw [heq] at ht
        rcases Nat.lt_or_ge (ptIndex virt) 1023 with hlt | hge
        · exact hframe.noTable _ hlt ht
        · rw [show ptIndex virt = 1023 by omega, hself] at ht
          exact hframe.noDirectory (Option.some.inj ht).symm
      have hlt : ptIndex virt < 1023 := by
        by_contra hge
        rw [show ptIndex virt = 1023 by omega, hself] at hnone
        cases hnone
      have hpage : virt / 4096 = windowPage + ptIndex virt := by
        rw [ptIndex_eq]
        unfold pdIndex at hindex
        unfold windowPage
        omega
      refine Or.inr ⟨_, rfl, ?_⟩
      rw [hpage]
      exact h.enter hlt hnone hframe hp rfl hflags

theorem Cleared.refl (h : Sound m) {p : Nat} (hp : m.tr p = none) : Cleared m m p :=
  ⟨h, rfl, rfl, hp, fun _ _ _ => rfl, fun _ _ _ hf => hf, fun _ _ _ hf => hf⟩

theorem Unmapped.cleared (h : Sound m) {m' : Machine} {p : Nat} (hp : p < windowPage)
    (hm : Unmapped m m' p) : Cleared m m' p := by
  have hgone := hm.tr p hp
  rw [if_pos rfl] at hgone
  have hsame : ∀ q < pageLimit, q ≠ p → m'.tr q = m.tr q := by
    intro q hq hne
    by_cases hbelow : q < windowPage
    · rw [hm.tr q hbelow, if_neg hne]
    · have hlo := not_lt.mp hbelow
      rw [hm.sound.tr_window hlo hq, h.tr_window hlo hq]
      exact hm.tables _ (Nat.mod_lt _ (by decide))
  refine ⟨hm.sound, hm.cr3, hm.pmm, hgone, fun q hq hnot => hsame q hq fun heq => hnot (Or.inl heq), ?_, ?_⟩
  · intro q hq f hf
    by_cases hqp : q = p
    · rw [hqp, hgone] at hf
      cases hf
    · rw [← hsame q hq hqp]
      exact hf
  · intro k hk f hf
    rw [← hm.tables k (by omega)]
    exact hf

/-- Taking a page table out of the directory. -/
theorem Sound.leave (h : Sound m) {i : Nat} (hi : i < 1023) :
    Cleared m (m.setWord m.cr3 i 0) (windowPage + i) := by
  have hone : ∀ k, (m.setWord m.cr3 i 0).table k = if k = i then none else m.table k :=
    table_setDirectory m i 0
  have htr := fun q hq hne => @Sound.tr_setDirectory m h q i hq hne 0
  have hon : (m.setWord m.cr3 i 0).pagingEnabled = m.pagingEnabled := rfl
  have hcr3 : (m.setWord m.cr3 i 0).cr3 = m.cr3 := rfl
  have hpmm : (m.setWord m.cr3 i 0).pmm = m.pmm := rfl
  generalize m.setWord m.cr3 i 0 = m' at hone htr hon hcr3 hpmm
  have hfewer : ∀ k f, m'.table k = some f → m.table k = some f := by
    intro k f hf
    rw [hone] at hf
    split at hf
    · cases hf
    · exact hf
  have hsound : Sound m' := by
    refine h.setTable hi hone hcr3 hon (by rw [hpmm]; exact h.pmm) (by rw [hpmm]; exact fun _ hf => hf) ?_
    exact fun _ hb => nomatch hb
  have hwindow := fun q => @Sound.tr_setWindow m h m' hsound i hi _ hone q
  obtain ⟨hp, hmod⟩ := windowPage_add hi
  have hgone : m'.tr (windowPage + i) = none := by
    rw [hwindow _ (Nat.le_add_right _ _) hp, if_pos rfl]
  have hsame : ∀ q < pageLimit, ¬ Touches (windowPage + i) q → m'.tr q = m.tr q := by
    intro q hq hnot
    obtain ⟨hne, hregion⟩ := not_or.mp hnot
    rw [hmod] at hregion
    by_cases hbelow : q < windowPage
    · exact htr q hbelow fun heq => hregion ⟨Nat.le_add_right _ _, heq⟩
    · rw [hwindow q (not_lt.mp hbelow) hq, if_neg hne]
  refine ⟨hsound, hcr3, hpmm, hgone, hsame, ?_, fun k _ => hfewer k⟩
  intro q hq f hf
  by_cases htouch : Touches (windowPage + i) q
  · rcases htouch with rfl | ⟨-, hregion⟩
    · rw [hgone] at hf
      cases hf
    · obtain ⟨t, ht⟩ := table_of_tr hf
      rw [hregion, hmod, hone, if_pos rfl] at ht
      cases ht
  · rw [← hsame q hq htouch]
    exact hf

/-- `vmm_unmap_page` anywhere but at the directory itself. -/
theorem vmmUnmapPage_anywhere (h : Sound m) {virt : Nat} (hv : virt / 4096 + 1 < pageLimit) :
    ∃ st m', vmmUnmapPage m virt = some (st, m') ∧ Cleared m m' (virt / 4096) := by
  by_cases hbelow : pdIndex virt < 1023
  · rcases vmmUnmapPage_spec h hbelow with ⟨hnone, hrun⟩ | ⟨-, m', hrun, hm⟩
    · exact ⟨_, m, hrun, Cleared.refl h hnone⟩
    · exact ⟨_, m', hrun, hm.cleared h (page_lt_window hbelow)⟩
  · have hself := h.tables.selfMap
    have hindex : pdIndex virt = 1023 := by
      unfold pageLimit at hv
      unfold pdIndex at hbelow ⊢
      omega
    have hlt : ptIndex virt < 1023 := by
      rw [ptIndex_eq]
      unfold pdIndex at hindex
      unfold pageLimit at hv
      omega
    have hpage : virt / 4096 = windowPage + ptIndex virt := by
      rw [ptIndex_eq]
      unfold pdIndex at hindex
      unfold windowPage
      omega
    have htable : m.table (pdIndex virt) = some m.cr3 := by
      rw [hindex]
      exact hself
    obtain ⟨hpresent, -⟩ := decode_eq_some.mp htable
    unfold vmmUnmapPage
    rw [if_pos h.enabled, load_pdSlot hself (by omega)]
    simp only [Option.bind_eq_bind, Option.bind_some, hpresent, if_true,
      load_ptSlot hself (by omega : pdIndex virt < 1024) htable]
    by_cases hpte : present (m.word m.cr3 (ptIndex virt)) = true
    · rw [if_pos hpte, store_ptSlot hself (by omega) htable]
      refine ⟨_, _, rfl, ?_⟩
      rw [hpage]
      exact h.leave hlt
    · rw [if_neg hpte]
      refine ⟨_, m, rfl, Cleared.refl h ?_⟩
      have hmod : (windowPage + ptIndex virt) % 1024 = ptIndex virt := by
        unfold windowPage
        omega
      rw [hpage, h.tr_window (Nat.le_add_right _ _) (by unfold windowPage pageLimit; omega), hmod]
      exact decode_eq_none.mpr (by simpa using hpte)

end Frostix.Vmm
