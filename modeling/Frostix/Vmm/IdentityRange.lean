import Frostix.Vmm.MapPages
import Frostix.Vmm.Ranges
import Frostix.Vmm.Runs

/-!
`vmm_map_if_not_mapped` goes through a range of pages and maps those to their own frames
that are not mapped. It has no rollback: what an error leaves behind is a mapped part of
the range. A page of the range that is in its frame already stays as it is, so the call can
be repeated. -/
namespace Frostix.Vmm
open Machine32 Pmm

theorem Sound.mapped_self {m : Machine} (h : Sound m) {p : Nat} (hp : m.tr p = some p) : Mapped m m p p := by
  refine ⟨h, rfl, Or.inr hp, ?_, .kept rfl fun _ _ => rfl⟩
  intro q _
  split_ifs with heq
  · rw [heq, hp]
  · rfl

/-- What a call with the pages from `lo` to `hi` does. A page of the window changes only
where it shows a page table that was missing. -/
structure IdentityMeets (m : Machine) (lo hi : Nat) (status : KernelStatus) (m' : Machine) : Prop where
  sound : Sound m'
  done : status = .ok → ∀ q, lo ≤ q → q < hi → m'.tr q = some q
  kept : ∀ q < pageLimit, ∀ f, m.tr q = some f → m'.tr q = some f
  outside : ∀ q < windowPage, ¬ (lo ≤ q ∧ q < hi) → m'.tr q = m.tr q
  window : ∀ k < 1024, m'.tr (windowPage + k) ≠ m.tr (windowPage + k) → k ∈ missingTables m lo hi
  succeeds : (∀ q, lo ≤ q → q < hi → ∀ f, m.tr q = some f → f = q) →
    (missingTables m lo hi).card ≤ m.pmm.freePages → status = .ok

section Loop
variable {m₀ m : Machine} {lo : Nat}

/-- One page: an obstacle ends the loop, any other page is in its frame afterwards. -/
theorem mapMissingFrom_succ (left i : Nat) (hmapped : MappedRange m₀ m lo (lo + i) id)
    (hw : lo + i < windowPage) :
    (Stops m₀ lo (lo + i) (lo + i) ∧
        ∃ st, st ≠ .ok ∧ mapMissingFrom (lo * 4096) (left + 1) i m = some (st, m)) ∨
      (¬ Stops m₀ lo (lo + i) (lo + i) ∧ ∃ m', MappedRange m₀ m' lo (lo + (i + 1)) id ∧
        mapMissingFrom (lo * 4096) (left + 1) i m = mapMissingFrom (lo * 4096) left (i + 1) m') := by
  have hlt : (lo + i) * 4096 < 2 ^ 32 := by
    unfold windowPage at hw
    omega
  have hva : wrap (lo * 4096 + i * 4096) = (lo + i) * 4096 := by rw [← Nat.add_mul, wrap_of_lt hlt]
  have hdiv : (lo + i) * 4096 / 4096 = lo + i := Nat.mul_div_cancel _ (by decide)
  have hindex : pdIndex ((lo + i) * 4096) < 1023 := by
    rw [pdIndex_eq, hdiv]
    exact div_page hw
  have hlookup := vmmGetPhysicalAddr_spec hmapped.sound hindex
  rw [hdiv, Nat.mul_mod_left] at hlookup
  -- a page that the lookup does not show is mapped
  have hmap : vmmGetPhysicalAddr m ((lo + i) * 4096) = some 0 →
      (Stops m₀ lo (lo + i) (lo + i) ∧
          ∃ st, st ≠ .ok ∧ mapMissingFrom (lo * 4096) (left + 1) i m = some (st, m)) ∨
        (¬ Stops m₀ lo (lo + i) (lo + i) ∧ ∃ m', MappedRange m₀ m' lo (lo + (i + 1)) id ∧
          mapMissingFrom (lo * 4096) (left + 1) i m = mapMissingFrom (lo * 4096) left (i + 1) m') := by
    intro hzero
    rw [mapMissingFrom, hva, hzero]
    simp only [Option.bind_eq_bind, Option.bind_some, if_true]
    rcases hmapped.next (g := id) (Nat.le_add_right lo i) hw hdiv hdiv hlt
        (by decide : (pageFlagPresent + pageFlagRw + pageFlagGlobal) % 2 = 1) with
      ⟨hstop, st, hst, hrun⟩ | ⟨hgo, m', hrun, hnext⟩
    · rw [hrun]
      exact Or.inl ⟨hstop, st, hst, if_pos hst⟩
    · rw [hrun]
      exact Or.inr ⟨hgo, m', hnext, rfl⟩
  cases htr : m.tr (lo + i) with
  | none =>
      rw [htr] at hlookup
      exact hmap hlookup
  | some f =>
      rw [htr] at hlookup
      by_cases hf : f = 0
      · rw [hf] at hlookup
        exact hmap hlookup
      · have hbefore : m₀.tr (lo + i) = some f := by
          rw [← htr, hmapped.tr _ hw, if_neg fun hc => lt_irrefl _ hc.2]
        rw [mapMissingFrom, hva, hlookup]
        simp only [Option.bind_eq_bind, Option.bind_some]
        rw [if_neg (by omega)]
        by_cases hown : f = lo + i
        · subst hown
          have hnext := hmapped.snoc (Nat.le_add_right lo i) hw (hmapped.sound.mapped_self htr)
          refine Or.inr ⟨?_, m, hnext, if_neg (by simp)⟩
          rintro (⟨g, hg, hne⟩ | hfew)
          · rw [hbefore] at hg
            exact hne (Option.some.inj hg).symm
          · have hspent := hnext.spent
            omega
        · exact Or.inl ⟨Or.inl ⟨f, hbefore, hown⟩, .invalidParam, by decide, if_pos (by omega)⟩

theorem mapMissingFrom_range {count : Nat} (hw : lo + count ≤ windowPage) (left : Nat) :
    ∀ i m, i + left = count → MappedRange m₀ m lo (lo + i) id →
      (∀ j < i, ¬ Stops m₀ lo (lo + j) (lo + j)) →
      ∃ n status m', Reaches m₀ lo id count n ∧ mapMissingFrom (lo * 4096) left i m = some (status, m') ∧
        MappedRange m₀ m' lo (lo + n) id ∧ (status = .ok ↔ n = count) := by
  induction left with
  | zero =>
      intro i m hi hmapped hclear
      obtain rfl : i = count := hi
      exact ⟨i, .ok, m, ⟨le_rfl, hclear, fun hlt => absurd hlt (lt_irrefl i)⟩, rfl, hmapped, by simp⟩
  | succ left ih =>
      intro i m hi hmapped hclear
      rcases mapMissingFrom_succ left i hmapped (by omega) with ⟨hstop, st, hst, hrun⟩ | ⟨hgo, m', hnext, hrun⟩
      · refine ⟨i, st, m, ⟨by omega, hclear, fun _ => hstop⟩, hrun, hmapped, iff_of_false hst ?_⟩
        omega
      · rw [hrun]
        refine ih (i + 1) m' (by omega) hnext ?_
        intro j hj
        rcases Nat.lt_succ_iff_lt_or_eq.mp hj with hlt | rfl
        · exact hclear j hlt
        · exact hgo

end Loop

section Call
variable {m : Machine} {physStart size : Nat}

theorem vmmMapIfNotMapped_range (h : Sound m) (hw : (physStart + size + 4095) / 4096 ≤ windowPage) :
    ∃ n status m', Reaches m (physStart / 4096) id ((physStart + size + 4095) / 4096 - physStart / 4096) n ∧
      vmmMapIfNotMapped m physStart size = some (status, m') ∧
      MappedRange m m' (physStart / 4096) (physStart / 4096 + n) id ∧
      (status = .ok ↔ n = (physStart + size + 4095) / 4096 - physStart / 4096) := by
  have hlt : physStart + size + 4095 < 2 ^ 32 := by
    unfold windowPage at hw
    omega
  have hcount : wsub ((physStart + size + 4095) / 4096 * 4096) (physStart / 4096 * 4096) / 4096 =
      (physStart + size + 4095) / 4096 - physStart / 4096 := by
    rw [wsub_of_le (by omega) (by omega)]
    omega
  have hspec := mapMissingFrom_range
    (show physStart / 4096 + ((physStart + size + 4095) / 4096 - physStart / 4096) ≤ windowPage by omega)
    _ 0 m (Nat.zero_add _) (MappedRange.refl h _ _) nofun
  rw [vmmMapIfNotMapped, wrap_of_lt (by omega), alignUp_of_lt (by omega), alignDown, hcount]
  exact hspec

theorem not_stops {lo hi page : Nat} (hlo : lo ≤ page) (hhi : page < hi)
    (hown : ∀ q, lo ≤ q → q < hi → ∀ f, m.tr q = some f → f = q)
    (hroom : (missingTables m lo hi).card ≤ m.pmm.freePages) : ¬ Stops m lo page page := by
  rintro (⟨f, hf, hne⟩ | hfew)
  · exact hne (hown page hlo hhi f hf)
  · have hsub : missingTables m lo (page + 1) ⊆ missingTables m lo hi := by
      intro k hk
      obtain ⟨⟨q, ⟨hq, hq'⟩, hdiv⟩, hnone⟩ := mem_missingTables.mp hk
      exact mem_missingTables.mpr ⟨⟨q, ⟨hq, by omega⟩, hdiv⟩, hnone⟩
    have hcard := Finset.card_le_card hsub
    omega

theorem MappedRange.identityMeets {m' : Machine} {lo hi n : Nat} {status : KernelStatus} (h : Sound m)
    (hmapped : MappedRange m m' lo (lo + n) id) (hreach : Reaches m lo id (hi - lo) n) (hw : hi ≤ windowPage)
    (hok : status = .ok ↔ n = hi - lo) : IdentityMeets m lo hi status m' := by
  have hle := hreach.le
  refine ⟨hmapped.sound, ?_, ?_, ?_, ?_, ?_⟩
  · intro hst q hlo hhi
    rw [hok] at hst
    rw [hmapped.tr q (by omega), if_pos (by omega)]
    rfl
  · intro q hq f hf
    rcases Nat.lt_or_ge q windowPage with hlt | hge
    · rw [hmapped.tr q hlt]
      split_ifs with hin
      · rcases hmapped.before q hin.1 hin.2 with hb | hb
        · rw [hb] at hf
          cases hf
        · rw [← hb, hf]
      · exact hf
    · rw [h.tr_window hge hq] at hf
      rw [hmapped.sound.tr_window hge hq]
      exact hmapped.table_eq_some (Nat.mod_lt _ (by decide)) hf
  · intro q hq hout
    rw [hmapped.tr q hq, if_neg (by omega)]
  · intro k hk hne
    have hlo : windowPage ≤ windowPage + k := Nat.le_add_right _ k
    have hhi : windowPage + k < pageLimit := by
      unfold windowPage pageLimit
      omega
    have hmod : (windowPage + k) % 1024 = k := by
      unfold windowPage
      omega
    rw [h.tr_window hlo hhi, hmapped.sound.tr_window hlo hhi, hmod] at hne
    by_contra hnot
    refine hne (hmapped.tables k hk fun hmem => hnot ?_)
    obtain ⟨⟨q, ⟨hq, hq'⟩, hdiv⟩, hnone⟩ := mem_missingTables.mp hmem
    exact mem_missingTables.mpr ⟨⟨q, ⟨hq, by omega⟩, hdiv⟩, hnone⟩
  · intro hown hroom
    rw [hok]
    by_contra hne
    have hlt : n < hi - lo := by omega
    exact not_stops (Nat.le_add_right lo n) (by omega) hown hroom (hreach.stop hlt)

theorem vmmMapIfNotMapped_again (h : Sound m) (hw : (physStart + size + 4095) / 4096 ≤ windowPage)
    (hown : ∀ q, physStart / 4096 ≤ q → q < (physStart + size + 4095) / 4096 → m.tr q = some q) :
    ∃ m', vmmMapIfNotMapped m physStart size = some (.ok, m') ∧ m'.pmm = m.pmm ∧
      ∀ q < pageLimit, m'.tr q = m.tr q := by
  obtain ⟨n, status, m', hreach, hrun, hmapped, hok⟩ := vmmMapIfNotMapped_range h hw
  have hmeets := hmapped.identityMeets h hreach hw hok
  have hempty : missingTables m (physStart / 4096) ((physStart + size + 4095) / 4096) = ∅ := by
    refine Finset.eq_empty_of_forall_notMem fun k hmem => ?_
    obtain ⟨⟨q, ⟨hq, hq'⟩, rfl⟩, hnone⟩ := mem_missingTables.mp hmem
    have htr := hown q hq hq'
    rw [tr_of_no_table hnone] at htr
    cases htr
  have hst : status = .ok := hmeets.succeeds
    (fun q hlo hhi f hf => by rw [hown q hlo hhi] at hf; exact (Option.some.inj hf).symm)
    (by rw [hempty, Finset.card_empty]; exact Nat.zero_le _)
  have hend : physStart / 4096 + n = (physStart + size + 4095) / 4096 := by
    rw [hok] at hst
    omega
  rw [hend] at hmapped
  rw [hst] at hrun
  refine ⟨m', hrun, hmapped.pmm hempty, ?_⟩
  intro q hq
  rcases Nat.lt_or_ge q windowPage with hlt | hge
  · rw [hmapped.tr q hlt]
    split_ifs with hin
    · exact (hown q hin.1 hin.2).symm
    · rfl
  · rw [h.tr_window hge hq, hmapped.sound.tr_window hge hq]
    exact hmapped.tables _ (Nat.mod_lt _ (by decide)) (by rw [hempty]; exact Finset.notMem_empty _)

/-- Every call meets `IdentityMeets`, and after a success the same call succeeds again and
changes nothing. -/
theorem vmm_map_if_not_mapped_meets (h : Sound m) (hw : (physStart + size + 4095) / 4096 ≤ windowPage) :
    ∃ status m', vmmMapIfNotMapped m physStart size = some (status, m') ∧
      IdentityMeets m (physStart / 4096) ((physStart + size + 4095) / 4096) status m' ∧
      (status = .ok → ∃ m'', vmmMapIfNotMapped m' physStart size = some (.ok, m'') ∧ m''.pmm = m'.pmm ∧
        ∀ q < pageLimit, m''.tr q = m'.tr q) := by
  obtain ⟨n, status, m', hreach, hrun, hmapped, hok⟩ := vmmMapIfNotMapped_range h hw
  have hmeets := hmapped.identityMeets h hreach hw hok
  exact ⟨status, m', hrun, hmeets, fun hst => vmmMapIfNotMapped_again hmeets.sound hw (hmeets.done hst)⟩

end Call

theorem identityRange_window_changes :
    ∃ m', vmmMapIfNotMapped (smallMachine 0x21#8 6) 0x1000 1 = some (.ok, m') ∧
      (smallMachine 0x21#8 6).tr windowPage = none ∧ m'.tr windowPage ≠ none := by
  have hsound := smallMachine_sound
  obtain ⟨n, status, m', hreach, hrun, hmapped, hok⟩ :=
    @vmmMapIfNotMapped_range _ 0x1000 1 hsound (by decide)
  have hmeets := hmapped.identityMeets hsound hreach (by decide) hok
  have hst : status = .ok := hmeets.succeeds (by
    intro q hlo hhi f hf
    obtain rfl : q = 1 := by omega
    rw [tr_of_no_table (smallMachine_table _ _ (by decide))] at hf
    cases hf) (by decide)
  refine ⟨m', by rw [hrun, hst], by decide, ?_⟩
  have htr := hmeets.done hst 1 (by decide) (by decide)
  intro hnone
  rw [hmeets.sound.tr_window le_rfl (by decide)] at hnone
  rw [tr_of_no_table (show m'.table (1 / 1024) = none from hnone)] at htr
  cases htr

/-- The page of the window is outside of the range. With page 0 free in the bitmap, the call
is out of memory with a free page, and with the directory's frame free it destroys the
self-map and faults. -/
theorem identityRange_not_unchanged :
    (TablesOk (smallMachine 0x21#8 6) ∧
      ∃ m', vmmMapIfNotMapped (smallMachine 0x21#8 6) 0x1000 1 = some (.ok, m') ∧
        (smallMachine 0x21#8 6).tr windowPage = none ∧ m'.tr windowPage ≠ none) ∧
    (TablesOk (smallMachine 0xFE#8 1) ∧ (smallMachine 0xFE#8 1).pmm.freePages = 1 ∧
      ∃ m', vmmMapIfNotMapped (smallMachine 0xFE#8 1) 0x1000 1 = some (.outOfMemory, m')) ∧
    TablesOk (smallMachine 0xDF#8 1) ∧ vmmMapIfNotMapped (smallMachine 0xDF#8 1) 0x1000 1 = none := by
  refine ⟨⟨smallMachine_tablesOk _ _, identityRange_window_changes⟩,
    ⟨smallMachine_tablesOk _ _, rfl, _, rfl⟩, smallMachine_tablesOk _ _, ?_⟩
  exact Option.isNone_iff_eq_none.mp (by decide +kernel)

theorem vmm_map_if_not_mapped_meets_small :
    ∃ status m', vmmMapIfNotMapped (smallMachine 0x21#8 6) 0x1000 1 = some (status, m') ∧
      IdentityMeets (smallMachine 0x21#8 6) (0x1000 / 4096) ((0x1000 + 1 + 4095) / 4096) status m' ∧
      (status = .ok → ∃ m'', vmmMapIfNotMapped m' 0x1000 1 = some (.ok, m'') ∧ m''.pmm = m'.pmm ∧
        ∀ q < pageLimit, m''.tr q = m'.tr q) :=
  vmm_map_if_not_mapped_meets smallMachine_sound (by decide)

end Frostix.Vmm
