import Frostix.Vmm.MapPages
import Frostix.Vmm.Ranges

/-!
`vmm_unmap_pages` unmaps the pages of a range and then goes through them a second time to
take the page tables that have become empty out of the directory. The second loop runs once
for each page, not for each table: a table that is taken out at its first page is read
again at its second one, through an entry that is no longer present. -/
namespace Frostix.Vmm
open Machine32 Pmm

/-- Table `k` holds a page from `lo` to `hi`. -/
def Visited (lo hi k : Nat) : Prop := ∃ q, (lo ≤ q ∧ q < hi) ∧ q / 1024 = k

/-- Unmapping the pages from `lo` to `hi` leaves nothing in table `k`. -/
def Emptied (m : Machine) (lo hi k : Nat) : Prop :=
  Visited lo hi k ∧ ∀ q < windowPage, q / 1024 = k → m.tr q ≠ none → lo ≤ q ∧ q < hi

def OnePageEach (m : Machine) (lo hi : Nat) : Prop :=
  ∀ k, Emptied m lo hi k → ∀ q q', (lo ≤ q ∧ q < hi) → (lo ≤ q' ∧ q' < hi) → q / 1024 = k → q' / 1024 = k →
    q = q'

/-- The frames of these tables are given back, one after the other. -/
def freeTables (m : Machine) (tables : List Nat) : BitmapAllocator :=
  (tables.filterMap m.table).foldl (fun pmm f => pmmFreePage pmm (f * 4096)) m.pmm

/-- The effect of a call: the pages are unmapped and no others, the directory entries of the
tables that became empty are cleared and no others, and the frames of these tables are given
back, each of them once. -/
structure Reclaimed (m m' : Machine) (lo hi : Nat) : Prop where
  cr3 : m'.cr3 = m.cr3
  tr : ∀ q < windowPage, m'.tr q = if lo ≤ q ∧ q < hi then none else m.tr q
  cleared : ∀ k, Emptied m lo hi k → m'.word m.cr3 k = 0
  others : ∀ k, ¬ Emptied m lo hi k → m'.word m.cr3 k = m.word m.cr3 k
  freed : ∃ tables : List Nat, tables.Nodup ∧ (∀ k, k ∈ tables ↔ Emptied m lo hi k) ∧
    m'.pmm = freeTables m tables

section Table
variable {m : Machine} {virt f : Nat}

theorem load_ptWindow_none (h : m.table 1023 = some m.cr3) (hv : pdIndex virt < 1024)
    (hnone : m.table (pdIndex virt) = none) : m.load (ptWindow virt) = none := by
  have hdir : ptWindow virt / 2 ^ 22 = 1023 := by
    unfold ptWindow pageRecursivePtBase
    omega
  have htab : ptWindow virt / 4096 % 1024 = pdIndex virt := by
    unfold ptWindow pageRecursivePtBase
    omega
  obtain ⟨hp, hframe⟩ := decode_eq_some.mp h
  have hq := decode_eq_none.mp hnone
  unfold Machine.load Machine.walk
  rw [hdir, htab]
  simp only [hp, if_true, hframe, hq, Bool.false_eq_true, if_false]
  rfl

theorem tableEmptyFrom_spec (h : m.table 1023 = some m.cr3) (hv : pdIndex virt < 1024)
    (hf : m.table (pdIndex virt) = some f) (left : Nat) :
    ∀ j, j + left = 1024 → ∃ b, tableEmptyFrom m (ptWindow virt) left j = some b ∧
      (b = true ↔ ∀ i, j ≤ i → i < 1024 → m.slot f i = none) := by
  induction left with
  | zero =>
      intro j hj
      exact ⟨true, rfl, iff_of_true rfl fun i hlo hhi => by omega⟩
  | succ left ih =>
      intro j hj
      have hload : m.load (ptWindow virt + 4 * j) = some (m.word f j) := by
        rw [Machine.load, ptWindow, walk_table h hv (by omega) hf]
        rfl
      rw [tableEmptyFrom, hload]
      simp only [Option.bind_eq_bind, Option.bind_some]
      cases hpte : present (m.word f j) with
      | true =>
          refine ⟨false, rfl, iff_of_false Bool.false_ne_true fun hall => ?_⟩
          have hnone := decode_eq_none.mp (hall j le_rfl (by omega))
          rw [hpte] at hnone
          cases hnone
      | false =>
          obtain ⟨b, hrest, hb⟩ := ih (j + 1) (by omega)
          refine ⟨b, hrest, hb.trans ⟨fun hall i hlo hhi => ?_, fun hall i hlo hhi => hall i (by omega) hhi⟩⟩
          rcases Nat.eq_or_lt_of_le hlo with rfl | hlt
          · exact decode_eq_none.mpr hpte
          · exact hall i hlt hhi

theorem reclaimTable_gone (h : Distinct m) (hv : pdIndex virt < 1024) (hnone : m.table (pdIndex virt) = none) :
    reclaimTable m virt = none := by
  rw [reclaimTable, tableEmptyFrom, Nat.mul_zero, Nat.add_zero, load_ptWindow_none h.selfMap hv hnone]
  rfl

theorem reclaimTable_kept (h : Distinct m) (hv : pdIndex virt < 1024) (hf : m.table (pdIndex virt) = some f)
    (hheld : ∃ j < 1024, m.slot f j ≠ none) : reclaimTable m virt = some m := by
  obtain ⟨b, hempty, hb⟩ := tableEmptyFrom_spec h.selfMap hv hf 1024 0 (Nat.zero_add _)
  obtain ⟨j, hj, hslot⟩ := hheld
  have hfalse : b = false := by
    rw [← Bool.not_eq_true, hb]
    exact fun hall => hslot (hall j (Nat.zero_le j) hj)
  rw [reclaimTable, hempty, hfalse]
  rfl

/-- The machine without the page table in slot `k`, which is in frame `f`. -/
def Machine.dropTable (m : Machine) (k f : Nat) : Machine :=
  { m.setWord m.cr3 k 0 with pmm := pmmFreePage m.pmm (f * 4096) }

theorem reclaimTable_empty (h : Distinct m) (hv : pdIndex virt < 1024) (hf : m.table (pdIndex virt) = some f)
    (hnone : ∀ j < 1024, m.slot f j = none) : reclaimTable m virt = some (m.dropTable (pdIndex virt) f) := by
  obtain ⟨b, hempty, hb⟩ := tableEmptyFrom_spec h.selfMap hv hf 1024 0 (Nat.zero_add _)
  obtain ⟨hpres, hframe⟩ := decode_eq_some.mp hf
  have htrue : b = true := hb.mpr fun i _ hi => hnone i hi
  rw [reclaimTable, hempty, htrue]
  simp only [Option.bind_eq_bind, Option.bind_some, if_true, load_pdSlot h.selfMap hv, hpres,
    store_pdSlot h.selfMap hv, hframe]
  rfl

/-- Dropping an empty table changes no page below the window. -/
theorem Distinct.dropTable (h : Distinct m) {k : Nat} (hk : k < 1023) (hf : m.table k = some f)
    (hnone : ∀ j < 1024, m.slot f j = none) :
    Distinct (m.dropTable k f) ∧ (m.dropTable k f).word m.cr3 k = 0 ∧
      (∀ i, i ≠ k → (m.dropTable k f).word m.cr3 i = m.word m.cr3 i) ∧
      ∀ q < windowPage, (m.dropTable k f).tr q = m.tr q := by
  have hword : ∀ g i, (m.dropTable k f).word g i = if g = m.cr3 ∧ i = k then 0 else m.word g i :=
    fun g i => word_setWord m m.cr3 k 0 g i
  have htable : ∀ i, (m.dropTable k f).table i = if i = k then none else m.table i := by
    intro i
    rw [Machine.table, show (m.dropTable k f).cr3 = m.cr3 from rfl, hword]
    by_cases hi : i = k
    · rw [if_pos ⟨rfl, hi⟩, if_pos hi]
      rfl
    · rw [if_neg fun hc => hi hc.2, if_neg hi]
      rfl
  refine ⟨⟨h.enabled, ?_, ?_, ?_⟩, by rw [hword, if_pos ⟨rfl, rfl⟩],
    fun i hi => by rw [hword, if_neg fun hc => hi hc.2], ?_⟩
  · rw [htable, if_neg (by omega)]
    exact h.selfMap
  · intro i hi j hj g hg hg'
    rw [htable] at hg hg'
    split_ifs at hg hg'
    exact h.apart i hi j hj g hg hg'
  · intro i hi hg
    rw [htable] at hg
    split_ifs at hg
    exact h.notDirectory i hi hg
  · intro q hq
    by_cases hqk : q / 1024 = k
    · rw [tr_of_no_table (by rw [htable, if_pos hqk]), tr_of_table (f := f) (by rw [hqk]; exact hf)]
      exact (hnone _ (Nat.mod_lt _ (by decide))).symm
    · cases hg : m.table (q / 1024) with
      | none => rw [tr_of_no_table hg, tr_of_no_table (by rw [htable, if_neg hqk]; exact hg)]
      | some g =>
          have hdir : g ≠ m.cr3 := by
            rintro rfl
            exact h.notDirectory _ (div_page hq) hg
          rw [tr_of_table hg, tr_of_table (f := g) (by rw [htable, if_neg hqk]; exact hg), Machine.slot,
            Machine.slot, hword, if_neg fun hc => hdir hc.1]

end Table

/-- The second loop before page `p`, in a call that began in `m`. -/
structure Reclaiming (m s : Machine) (lo hi p : Nat) : Prop where
  distinct : Distinct s
  cr3 : s.cr3 = m.cr3
  tr : ∀ q < windowPage, s.tr q = if lo ≤ q ∧ q < hi then none else m.tr q
  cleared : ∀ k, Emptied m lo hi k → Visited lo p k → s.word m.cr3 k = 0
  others : ∀ k, ¬ (Emptied m lo hi k ∧ Visited lo p k) → s.word m.cr3 k = m.word m.cr3 k
  freed : ∃ tables : List Nat, tables.Nodup ∧ (∀ k, k ∈ tables ↔ Emptied m lo hi k ∧ Visited lo p k) ∧
    s.pmm = freeTables m tables
  once : ∀ k, Emptied m lo hi k → ∀ q q', (lo ≤ q ∧ q < p) → (lo ≤ q' ∧ q' < p) → q / 1024 = k →
    q' / 1024 = k → q = q'

section Loop
variable {m s : Machine} {lo hi p count virt : Nat}

theorem visited_empty (lo k : Nat) : ¬ Visited lo lo k := by
  rintro ⟨q, ⟨hlo, hhi⟩, -⟩
  exact absurd hlo (not_le.mpr hhi)

theorem visited_succ (hle : lo ≤ p) {k : Nat} : Visited lo (p + 1) k ↔ Visited lo p k ∨ p / 1024 = k := by
  constructor
  · rintro ⟨q, ⟨hlo, hhi⟩, hq⟩
    rcases Nat.lt_succ_iff_lt_or_eq.mp hhi with hlt | rfl
    · exact Or.inl ⟨q, ⟨hlo, hlt⟩, hq⟩
    · exact Or.inr hq
  · rintro (⟨q, ⟨hlo, hhi⟩, hq⟩ | hq)
    · exact ⟨q, ⟨hlo, Nat.lt_succ_of_lt hhi⟩, hq⟩
    · exact ⟨p, ⟨hle, Nat.lt_succ_self p⟩, hq⟩

theorem UnmappedRange.reclaiming (hu : UnmappedRange m s lo hi) (h : Distinct m) : Reclaiming m s lo hi lo := by
  refine ⟨hu.distinct h, hu.cr3, hu.tr, fun k _ hv => absurd hv (visited_empty lo k), fun k _ => hu.directory k,
    ⟨[], List.nodup_nil, ?_, hu.pmm⟩, ?_⟩
  · intro k
    exact iff_of_false List.not_mem_nil fun hc => visited_empty lo k hc.2
  · rintro k - q q' ⟨hlo, hhi⟩
    exact absurd hlo (not_le.mpr hhi)

theorem exists_held {k f : Nat} (htr : ∀ q < windowPage, s.tr q = if lo ≤ q ∧ q < hi then none else m.tr q)
    (hf : s.table k = some f) (hvisited : Visited lo hi k) (hnot : ¬ Emptied m lo hi k) :
    ∃ j < 1024, s.slot f j ≠ none := by
  rw [Emptied, not_and] at hnot
  have hother := hnot hvisited
  push Not at hother
  obtain ⟨q, hq, rfl, hsome, hout⟩ := hother
  have hheld := htr q hq
  rw [if_neg fun hc => absurd hc.2 (not_lt.mpr (hout hc.1)), tr_of_table hf] at hheld
  exact ⟨q % 1024, Nat.mod_lt _ (by decide), by rw [hheld]; exact hsome⟩

theorem slot_none_of_emptied {k f : Nat} (hk : k < 1023)
    (htr : ∀ q < windowPage, s.tr q = if lo ≤ q ∧ q < hi then none else m.tr q)
    (hf : s.table k = some f) (hempty : Emptied m lo hi k) : ∀ j < 1024, s.slot f j = none := by
  intro j hj
  have hdiv : (k * 1024 + j) / 1024 = k := by omega
  have hmod : (k * 1024 + j) % 1024 = j := by omega
  have hq : k * 1024 + j < windowPage := by
    unfold windowPage
    omega
  have hslot := htr _ hq
  rw [tr_of_table (f := f) (by rw [hdiv]; exact hf), hmod] at hslot
  rw [hslot]
  split_ifs with hin
  · rfl
  · by_contra hsome
    exact hin (hempty.2 _ hq hdiv hsome)

theorem Reclaiming.table (h : Reclaiming m s lo hi p) {k : Nat} (hnot : ¬ (Emptied m lo hi k ∧
    Visited lo p k)) :
    s.table k = m.table k := by
  unfold Machine.table
  rw [h.cr3, h.others k hnot]

theorem Reclaiming.skip (h : Reclaiming m s lo hi p) (hle : lo ≤ p) (hnot : ¬ Emptied m lo hi (p / 1024)) :
    Reclaiming m s lo hi (p + 1) := by
  have hsame : ∀ k, Emptied m lo hi k ∧ Visited lo (p + 1) k ↔ Emptied m lo hi k ∧ Visited lo p k := by
    intro k
    refine and_congr_right fun hempty => ?_
    rw [visited_succ hle]
    exact or_iff_left fun hk => hnot (by rw [hk]; exact hempty)
  refine ⟨h.distinct, h.cr3, h.tr, fun k hempty hv => h.cleared k hempty ((hsame k).mp ⟨hempty, hv⟩).2, ?_,
    ?_, ?_⟩
  · intro k hk
    rw [hsame k] at hk
    exact h.others k hk
  · simp only [hsame]
    exact h.freed
  · intro k hempty q q' hq hq' hk hk'
    have hne : ∀ r, (lo ≤ r ∧ r < p + 1) → r / 1024 = k → lo ≤ r ∧ r < p := by
      rintro r ⟨hlo, hhi⟩ hr
      rcases Nat.lt_succ_iff_lt_or_eq.mp hhi with hlt | rfl
      · exact ⟨hlo, hlt⟩
      · rw [hr] at hnot
        exact absurd hempty hnot
    exact h.once k hempty q q' (hne q hq hk) (hne q' hq' hk') hk hk'

/-- The first page of a table that is dropped. -/
theorem Reclaiming.drop (h : Reclaiming m s lo hi p) (hle : lo ≤ p) (hw : p < windowPage)
    (hempty : Emptied m lo hi (p / 1024)) (hfirst : ¬ Visited lo p (p / 1024)) {f : Nat}
    (hf : s.table (p / 1024) = some f) : Reclaiming m (s.dropTable (p / 1024) f) lo hi (p + 1) := by
  have hk := div_page hw
  obtain ⟨hdistinct, hzero, hrest, htr⟩ :=
    h.distinct.dropTable hk hf (slot_none_of_emptied hk h.tr hf hempty)
  rw [h.cr3] at hzero hrest
  have hf₀ : m.table (p / 1024) = some f := by
    rw [← h.table fun hc => hfirst hc.2]
    exact hf
  refine ⟨hdistinct, h.cr3, fun q hq => (htr q hq).trans (h.tr q hq), ?_, ?_, ?_, ?_⟩
  · intro k hek hv
    rcases (visited_succ hle).mp hv with hv | rfl
    · have hne : k ≠ p / 1024 := by
        rintro rfl
        exact hfirst hv
      rw [hrest k hne]
      exact h.cleared k hek hv
    · exact hzero
  · intro k hnot
    rw [visited_succ hle] at hnot
    have hne : k ≠ p / 1024 := by
      rintro rfl
      exact hnot ⟨hempty, Or.inr rfl⟩
    rw [hrest k hne]
    exact h.others k fun hc => hnot ⟨hc.1, Or.inl hc.2⟩
  · obtain ⟨tables, hnodup, hmem, hpmm⟩ := h.freed
    refine ⟨tables ++ [p / 1024], ?_, ?_, ?_⟩
    · rw [List.nodup_append]
      refine ⟨hnodup, List.nodup_singleton _, ?_⟩
      rintro a ha b hb rfl
      rw [List.mem_singleton] at hb
      rw [hb] at ha
      exact hfirst ((hmem _).mp ha).2
    · intro k
      rw [List.mem_append, List.mem_singleton, hmem, visited_succ hle]
      constructor
      · rintro (⟨hek, hv⟩ | rfl)
        · exact ⟨hek, Or.inl hv⟩
        · exact ⟨hempty, Or.inr rfl⟩
      · rintro ⟨hek, hv | rfl⟩
        · exact Or.inl ⟨hek, hv⟩
        · exact Or.inr rfl
    · have hone : [p / 1024].filterMap m.table = [f] := by simp [hf₀]
      rw [freeTables, List.filterMap_append, List.foldl_append, hone, ← freeTables, ← hpmm]
      rfl
  · -- no page before this one is in the same table
    intro k hek q q' hq hq' hqk hqk'
    have hbefore : ∀ r, (lo ≤ r ∧ r < p + 1) → r / 1024 = k → r = p ∨ lo ≤ r ∧ r < p ∧ k ≠ p / 1024 := by
      rintro r ⟨hlo, hhi⟩ hr
      rcases Nat.lt_succ_iff_lt_or_eq.mp hhi with hlt | rfl
      · refine Or.inr ⟨hlo, hlt, ?_⟩
        rintro rfl
        exact hfirst ⟨r, ⟨hlo, hlt⟩, hr⟩
      · exact Or.inl rfl
    rcases hbefore q hq hqk with rfl | ⟨hlo, hlt, hne⟩
    · rcases hbefore q' hq' hqk' with rfl | ⟨-, -, hne⟩
      · rfl
      · exact absurd hqk.symm hne
    · rcases hbefore q' hq' hqk' with rfl | ⟨hlo', hlt', -⟩
      · exact absurd hqk'.symm hne
      · exact h.once k hek q q' ⟨hlo, hlt⟩ ⟨hlo', hlt'⟩ hqk hqk'

/-- The second loop: a second page of a table that was dropped is a page fault. -/
theorem reclaimFrom_spec (hw : virt / 4096 + count ≤ windowPage)
    (hmapped : ∀ q, virt / 4096 ≤ q → q < virt / 4096 + count → m.tr q ≠ none) (left : Nat) :
    ∀ i s, i + left = count → Reclaiming m s (virt / 4096) (virt / 4096 + count) (virt / 4096 + i) →
      (reclaimFrom virt left i s = none ∧ ¬ OnePageEach m (virt / 4096) (virt / 4096 + count)) ∨
      ∃ s', reclaimFrom virt left i s = some s' ∧
        Reclaiming m s' (virt / 4096) (virt / 4096 + count) (virt / 4096 + count) := by
  induction left with
  | zero =>
      intro i s hi hs
      obtain rfl : i = count := hi
      exact Or.inr ⟨s, rfl, hs⟩
  | succ left ih =>
      intro i s hi hs
      have hpage : (virt + i * 4096) / 4096 = virt / 4096 + i := by omega
      have hwrap : wrap (virt + i * 4096) = virt + i * 4096 := by
        unfold windowPage at hw
        exact wrap_of_lt (by omega)
      have hindex : pdIndex (virt + i * 4096) = (virt / 4096 + i) / 1024 := by rw [pdIndex_eq, hpage]
      have hbelow : virt / 4096 + i < windowPage := by omega
      have hlt : pdIndex (virt + i * 4096) < 1024 := by
        rw [hindex]
        exact lt_trans (div_page hbelow) (by decide)
      have hle : virt / 4096 ≤ virt / 4096 + i := Nat.le_add_right _ i
      rw [reclaimFrom, hwrap]
      obtain ⟨f, hf⟩ : ∃ f, m.table ((virt / 4096 + i) / 1024) = some f :=
        table_of_tr (Option.ne_none_iff_exists'.mp (hmapped _ hle (by omega))).choose_spec
      by_cases hempty : Emptied m (virt / 4096) (virt / 4096 + count) ((virt / 4096 + i) / 1024)
      · by_cases hv : Visited (virt / 4096) (virt / 4096 + i) ((virt / 4096 + i) / 1024)
        · left
          have hgone : s.table (pdIndex (virt + i * 4096)) = none := by
            rw [hindex, Machine.table, hs.cr3, hs.cleared _ hempty hv]
            rfl
          rw [reclaimTable_gone hs.distinct hlt hgone]
          refine ⟨rfl, fun hone => ?_⟩
          obtain ⟨q, ⟨hlo, hhi⟩, hq⟩ := hv
          have heq := hone _ hempty q (virt / 4096 + i) ⟨hlo, by omega⟩ ⟨hle, by omega⟩ hq rfl
          omega
        · have hstay : s.table ((virt / 4096 + i) / 1024) = some f := (hs.table fun hc => hv hc.2).trans hf
          rw [reclaimTable_empty hs.distinct hlt (by rw [hindex]; exact hstay)
            (slot_none_of_emptied (div_page hbelow) hs.tr hstay hempty), hindex]
          exact ih (i + 1) _ (by omega) (hs.drop hle hbelow hempty hv hstay)
      · have hstay : s.table ((virt / 4096 + i) / 1024) = some f := (hs.table fun hc => hempty hc.1).trans hf
        rw [reclaimTable_kept hs.distinct hlt (by rw [hindex]; exact hstay)
          (exists_held hs.tr hstay ⟨_, ⟨hle, by omega⟩, rfl⟩ hempty)]
        exact ih (i + 1) s (by omega) (hs.skip hle hempty)

theorem unmapPagesFrom_spec (h : Distinct m) (hw : virt / 4096 + count ≤ windowPage)
    (hmapped : ∀ q, virt / 4096 ≤ q → q < virt / 4096 + count → m.tr q ≠ none) (left : Nat) :
    ∀ i s, i + left = count → UnmappedRange m s (virt / 4096) (virt / 4096 + i) →
      ∃ s', unmapPagesFrom virt left i s = some (.ok, s') ∧
        UnmappedRange m s' (virt / 4096) (virt / 4096 + count) := by
  induction left with
  | zero =>
      intro i s hi hs
      obtain rfl : i = count := hi
      exact ⟨s, rfl, hs⟩
  | succ left ih =>
      intro i s hi hs
      have hpage : (virt + i * 4096) / 4096 = virt / 4096 + i := by omega
      have hwrap : wrap (virt + i * 4096) = virt + i * 4096 := by
        unfold windowPage at hw
        exact wrap_of_lt (by omega)
      have hbelow : virt / 4096 + i < windowPage := by omega
      have hindex : pdIndex (virt + i * 4096) < 1023 := by
        rw [pdIndex_eq, hpage]
        exact div_page hbelow
      have hle : virt / 4096 ≤ virt / 4096 + i := Nat.le_add_right _ i
      have hspec := (hs.distinct h).vmmUnmapPage_spec hindex
      rw [hpage] at hspec
      rw [unmapPagesFrom, hwrap]
      rcases hspec with ⟨hnone, -⟩ | ⟨-, f, hf, hrun, hgone⟩
      · rw [hs.tr _ hbelow, if_neg fun hc => lt_irrefl _ hc.2] at hnone
        exact absurd hnone (hmapped _ hle (by omega))
      · rw [hrun]
        simp only [Option.bind_eq_bind, Option.bind_some, ne_eq, not_true_eq_false, if_false]
        exact ih (i + 1) _ (by omega) (hs.snoc (hs.distinct h) hle hbelow hf hgone)

end Loop

/-- The call does what it is for exactly if no table that becomes empty holds two pages of
the range; otherwise it ends in a page fault. -/
theorem vmm_unmap_pages_reclaims_iff {m : Machine} (h : Distinct m) {virt count : Nat}
    (hw : virt / 4096 + count ≤ windowPage)
    (hmapped : ∀ q, virt / 4096 ≤ q → q < virt / 4096 + count → m.tr q ≠ none) :
    (∃ m', vmmUnmapPages m virt count = some (.ok, m') ∧
        Reclaimed m m' (virt / 4096) (virt / 4096 + count)) ↔
      OnePageEach m (virt / 4096) (virt / 4096 + count) := by
  obtain ⟨s, hrun, hs⟩ := unmapPagesFrom_spec h hw hmapped count 0 m (Nat.zero_add _) (UnmappedRange.refl m _)
  have hcall : vmmUnmapPages m virt count = (reclaimFrom virt count 0 s).map fun s' => (.ok, s') := by
    rw [vmmUnmapPages, hrun]
    simp only [Option.bind_eq_bind, Option.bind_some, ne_eq, not_true_eq_false, if_false, hs.enabled,
      h.enabled, if_true]
    cases reclaimFrom virt count 0 s with
    | none => rfl
    | some s' => rfl
  rw [hcall]
  rcases reclaimFrom_spec hw hmapped count 0 s (Nat.zero_add _) (hs.reclaiming h) with ⟨hfault, hmany⟩ |
    ⟨s', hdone, hr⟩
  · rw [hfault]
    refine iff_of_false ?_ hmany
    rintro ⟨m', hm', -⟩
    cases hm'
  · rw [hdone]
    refine iff_of_true ⟨s', rfl, hr.cr3, hr.tr, fun k hk => hr.cleared k hk hk.1, ?_, ?_⟩ hr.once
    · exact fun k hk => hr.others k fun hc => hk hc.1
    · obtain ⟨tables, hnodup, hmem, hpmm⟩ := hr.freed
      exact ⟨tables, hnodup, fun k => (hmem k).trans (and_iff_left_of_imp fun hk => hk.1), hpmm⟩

/-- The two pages of the machine are in one table, which becomes empty with them. -/
theorem vmm_unmap_pages_faults :
    Distinct twoPageMachine ∧ (∀ q, 1 ≤ q → q < 3 → twoPageMachine.tr q ≠ none) ∧
      vmmUnmapPages twoPageMachine 0x1000 2 = none := by
  refine ⟨twoPageMachine_sound.distinct, ?_, Option.isNone_iff_eq_none.mp (by decide +kernel)⟩
  intro q hlo hhi
  obtain rfl | rfl : q = 1 ∨ q = 2 := by omega
  · decide
  · decide

theorem vmm_unmap_pages_reclaims_one :
    (∃ m', vmmUnmapPages twoPageMachine 0x1000 1 = some (.ok, m') ∧
        Reclaimed twoPageMachine m' (0x1000 / 4096) (0x1000 / 4096 + 1)) ↔
      OnePageEach twoPageMachine (0x1000 / 4096) (0x1000 / 4096 + 1) :=
  vmm_unmap_pages_reclaims_iff twoPageMachine_sound.distinct (by decide) (by
    intro q hlo hhi
    obtain rfl : q = 1 := by omega
    decide)

end Frostix.Vmm
