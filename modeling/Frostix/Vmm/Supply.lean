import Frostix.Pmm.Spent
import Frostix.Vmm.Quiet

/-!
Pages that are mapped one after the other, each to the next free frame. What will be in the way of
a page is known before the first of them is mapped. -/
namespace Frostix.Vmm
open Machine32 Pmm

/-- The frames that the pages of `Q` take: one for each page, and one for each page table that is
missing. -/
def framesFor (m : Machine) (Q : Finset Nat) : Nat :=
  Q.card + ((Q.image (· / 1024)).filter fun k => m.table k = none).card

/-- Behind the pages of `Q`, `page` cannot be mapped: it is mapped to another frame than the one
that comes next, it is one of them, it shows one of their page tables, or the free frames do not do. -/
def Refused (m : Machine) (Q : Finset Nat) (page : Nat) : Prop :=
  (∃ f, m.tr page = some f ∧ f ≠ Nat.nth (Free m.pmm) (framesFor m Q)) ∨ page ∈ Q ∨
    (∃ q ∈ Q, page = windowPage + q / 1024) ∨ m.pmm.freePages < framesFor m (insert page Q)

/-- From `m₀` to `m` the pages of `Q` were mapped, each to the frame that came next. -/
structure Supplied (m₀ m : Machine) (Q : Finset Nat) : Prop where
  quiet : Quiet (Q : Set Nat) m₀ m
  spent : Spent m₀.pmm m.pmm (framesFor m₀ Q)
  table : ∀ k < 1023, m.table k = none ↔ m₀.table k = none ∧ ∀ q ∈ Q, q / 1024 ≠ k ∧ q ≠ windowPage + k
  mapped : ∀ q ∈ Q, ∃ f, m.tr q = some f ∧ ¬ Free m.pmm f

section Frames
variable {m : Machine} {Q : Finset Nat} {p f : Nat}

theorem framesFor_empty (m : Machine) : framesFor m ∅ = 0 := by simp [framesFor]

theorem framesFor_insert (m : Machine) (hp : p ∉ Q) : framesFor m (insert p Q) =
    framesFor m Q + (1 + if m.table (p / 1024) = none ∧ ∀ q ∈ Q, q / 1024 ≠ p / 1024 then 1 else 0) := by
  have himage : p / 1024 ∈ Q.image (· / 1024) ↔ ∃ q ∈ Q, q / 1024 = p / 1024 := Finset.mem_image
  rw [framesFor, framesFor, Finset.card_insert_of_notMem hp, Finset.image_insert, Finset.filter_insert]
  by_cases hnone : m.table (p / 1024) = none
  · rw [if_pos hnone, Finset.card_insert_eq_ite]
    by_cases hshared : ∃ q ∈ Q, q / 1024 = p / 1024
    · rw [if_pos (Finset.mem_filter.mpr ⟨himage.mpr hshared, hnone⟩), if_neg (by simpa [hnone] using hshared)]
      omega
    · rw [if_neg fun hmem => hshared (himage.mp (Finset.mem_filter.mp hmem).1),
        if_pos ⟨hnone, by simpa using hshared⟩]
      omega
  · rw [if_neg hnone, if_neg fun h => hnone h.1]
    omega

theorem framesFor_le (m : Machine) (Q : Finset Nat) : framesFor m Q ≤ 2 * Q.card := by
  have hfilter := Finset.card_filter_le (Q.image (· / 1024)) fun k => m.table k = none
  have himage : (Q.image (· / 1024)).card ≤ Q.card := Finset.card_image_le
  unfold framesFor
  omega

theorem framesFor_singleton (m : Machine) (p : Nat) :
    framesFor m {p} = 1 + if m.table (p / 1024) = none then 1 else 0 := by
  have h := framesFor_insert m (Finset.notMem_empty p)
  rw [insert_empty_eq, framesFor_empty, Nat.zero_add] at h
  simpa using h

theorem Sound.table_used (h : Sound m) {k : Nat} (hk : k < 1024) (hf : m.table k = some f) : ¬ Free m.pmm f := by
  rcases Nat.lt_or_ge k 1023 with hlt | hge
  · exact (testBit_iff.mp (h.tables.marked k hlt f hf)).2
  · obtain rfl : k = 1023 := by omega
    obtain rfl : f = m.cr3 := Option.some.inj (hf.symm.trans h.tables.selfMap)
    exact (testBit_iff.mp h.directory).2

theorem refused_of_used (hwf : WellFormed m.pmm) (hf : m.tr p = some f) (hused : ¬ Free m.pmm f) :
    Refused m Q p := by
  by_cases hin : p ∈ Q
  · exact Or.inr (Or.inl hin)
  rcases Nat.lt_or_ge (framesFor m Q) m.pmm.freePages with hlt | hge
  · exact Or.inl ⟨f, hf, fun heq => hused (heq ▸ hwf.free_nth hlt)⟩
  · refine Or.inr (Or.inr (Or.inr ?_))
    rw [framesFor_insert m hin]
    omega

theorem refused_of_window (h : Sound m) (hlo : windowPage ≤ p) (hhi : p < pageLimit) (hf : m.tr p = some f) :
    Refused m Q p :=
  refused_of_used h.pmm hf (h.table_used (Nat.mod_lt p (by decide)) ((h.tr_window hlo hhi).symm.trans hf))

end Frames

section Pages
variable {m₀ m m' : Machine} {Q : Finset Nat} {p : Nat}

theorem Supplied.refl (h : Sound m) : Supplied m m ∅ := by
  refine ⟨Quiet.refl _ h, ?_, fun k _ => ?_, fun q hq => absurd hq (Finset.notMem_empty q)⟩
  · rw [framesFor_empty]
    exact Spent.refl m.pmm
  · exact (and_iff_left fun q hq => absurd hq (Finset.notMem_empty q)).symm

theorem Supplied.framesFor_insert (h : Supplied m₀ m Q) (h₀ : Sound m₀) (hp : p < pageLimit)
    (hside : p < windowPage → ∀ q ∈ Q, q < windowPage) (hnot : p ∉ Q) :
    framesFor m₀ (insert p Q) = framesFor m₀ Q + framesFor m {p} := by
  rw [Vmm.framesFor_insert m₀ hnot, framesFor_singleton]
  congr 2
  refine if_congr ?_ rfl rfl
  rcases Nat.lt_or_ge p windowPage with hlt | hge
  · rw [h.table _ (div_page hlt)]
    refine and_congr_right fun _ => forall₂_congr fun q hq => (and_iff_left ?_).symm
    have hbelow := hside hlt q hq
    omega
  · have hdir : p / 1024 = 1023 := by
      unfold windowPage pageLimit at *
      omega
    rw [hdir, h₀.tables.selfMap, h.quiet.sound.tables.selfMap]
    simp

/-- What is in the way of the next page was known before. -/
theorem Supplied.refused_iff (h : Supplied m₀ m Q) (h₀ : Sound m₀) (hp : p < pageLimit)
    (hside : p < windowPage → ∀ q ∈ Q, q < windowPage) : Refused m ∅ p ↔ Refused m₀ Q p := by
  have hm := h.quiet.sound
  by_cases hin : p ∈ Q
  · obtain ⟨f, hf, hused⟩ := h.mapped p hin
    exact iff_of_true (refused_of_used hm.pmm hf hused) (Or.inr (Or.inl hin))
  have hspent := h.spent.freePages_eq
  have hframes := h.framesFor_insert h₀ hp hside hin
  have hfew : m.pmm.freePages < framesFor m {p} ↔ m₀.pmm.freePages < framesFor m₀ (insert p Q) := by omega
  have hone : 0 < framesFor m {p} := by
    rw [framesFor_singleton]
    omega
  -- with a page that is as it was, the question is the same
  have hsame : m.tr p = m₀.tr p → (∀ q ∈ Q, p ≠ windowPage + q / 1024) → (Refused m ∅ p ↔ Refused m₀ Q p) := by
    intro htr hshown
    rcases Nat.eq_zero_or_pos m.pmm.freePages with hzero | hpos
    · refine iff_of_true (Or.inr (Or.inr (Or.inr ?_))) (Or.inr (Or.inr (Or.inr (hfew.mp (by omega)))))
      rw [insert_empty_eq]
      omega
    · have hnext := h.spent.next hm.pmm hpos
      have hnone : ¬ ∃ q ∈ Q, p = windowPage + q / 1024 := fun ⟨q, hq, heq⟩ => hshown q hq heq
      simp only [Refused, framesFor_empty, hnext, htr, hin, hnone, insert_empty_eq, hfew, Finset.notMem_empty,
        false_and, exists_false, false_or]
  rcases Nat.lt_or_ge p windowPage with hlt | hge
  · refine hsame ?_ fun q _ heq => by omega
    cases hbefore : m₀.tr p with
    | none => exact h.quiet.empty (hside hlt) p hlt hin hbefore
    | some f => exact (h.quiet.kept p hp f hbefore).resolve_right fun hloose => hin hloose.1
  · -- a page of the window shows a page table, which has come with a page of `Q` or was there before
    have hmod : p = windowPage + p % 1024 := by
      unfold windowPage pageLimit at *
      omega
    have htr := hm.tr_window hge hp
    have htr₀ := h₀.tr_window hge hp
    rcases Nat.lt_or_ge (p % 1024) 1023 with hk | hk
    · by_cases hshown : ∃ q ∈ Q, p = windowPage + q / 1024
      · obtain ⟨q, hq, heq⟩ := hshown
        have hsome : m.table (p % 1024) ≠ none := fun hnone => (((h.table _ hk).mp hnone).2 q hq).1 (by omega)
        obtain ⟨t, ht⟩ := Option.ne_none_iff_exists'.mp hsome
        exact iff_of_true (refused_of_window hm hge hp (htr.trans ht)) (Or.inr (Or.inr (Or.inl ⟨q, hq, heq⟩)))
      cases hbefore : m₀.table (p % 1024) with
      | none =>
          refine hsame ?_ fun q hq heq => hshown ⟨q, hq, heq⟩
          rw [htr, htr₀, hbefore]
          refine (h.table _ hk).mpr ⟨hbefore, fun q hq => ⟨fun heq => hshown ⟨q, hq, by omega⟩, fun heq => ?_⟩⟩
          exact hin ((hmod.trans heq.symm) ▸ hq)
      | some t =>
          exact iff_of_true (refused_of_window hm hge hp (htr.trans (h.quiet.keepsTable h₀ hk hbefore)))
            (refused_of_window h₀ hge hp (htr₀.trans hbefore))
    · have hdir : p % 1024 = 1023 := by omega
      rw [hdir] at htr htr₀
      exact iff_of_true (refused_of_window hm hge hp (htr.trans hm.tables.selfMap))
        (refused_of_window h₀ hge hp (htr₀.trans h₀.tables.selfMap))

theorem Supplied.snoc (h : Supplied m₀ m Q) (h₀ : Sound m₀) (h' : Supplied m m' {p}) (hp : p < pageLimit)
    (hQ : ∀ q ∈ Q, q < pageLimit) (hside : p < windowPage → ∀ q ∈ Q, q < windowPage) (hnot : p ∉ Q) :
    Supplied m₀ m' (insert p Q) := by
  refine ⟨?_, ?_, fun k hk => ?_, fun q hq => ?_⟩
  · refine (h.quiet.mono ?_).trans (h'.quiet.mono ?_)
    · exact Finset.coe_subset.mpr (Finset.subset_insert p Q)
    · exact Finset.coe_subset.mpr (Finset.singleton_subset_iff.mpr (Finset.mem_insert_self p Q))
  · rw [h.framesFor_insert h₀ hp hside hnot]
    exact h.spent.trans h'.spent
  · rw [h'.table k hk, h.table k hk, Finset.forall_mem_insert]
    simp only [Finset.mem_singleton, forall_eq]
    tauto
  · rcases Finset.mem_insert.mp hq with rfl | hq
    · exact h'.mapped q (Finset.mem_singleton_self q)
    · obtain ⟨f, hf, hused⟩ := h.mapped q hq
      exact ⟨f, h'.quiet.keeps (hQ q hq) hf hused, fun hfree => hused (h'.quiet.free f hfree)⟩

end Pages

section Call
variable {m m' : Machine} {virt phys flags : Nat}

theorem Machine.store_pmm {va v : Nat} (h : m.store va v = some m') : m'.pmm = m.pmm := by
  obtain ⟨⟨frame, i⟩, -, rfl⟩ := Option.map_eq_some_iff.mp h
  rfl

theorem Machine.clearPage_pmm {va : Nat} (h : m.clearPage va = some m') : m'.pmm = m.pmm := by
  unfold Machine.clearPage at h
  generalize List.range 1024 = l at h
  induction l generalizing m with
  | nil =>
      cases h
      rfl
  | cons i l ih =>
      obtain ⟨m₁, hstore, hrest⟩ := Option.bind_eq_some_iff.mp h
      rw [ih hrest, Machine.store_pmm hstore]

/-- The frame of a page table comes from `pmm_alloc_page`. -/
theorem ensureTable_pmm {st : KernelStatus} (h : ensureTable m virt = some (st, m')) :
    m'.pmm = m.pmm ∨ m'.pmm = (pmmAllocPage m.pmm).2 := by
  obtain ⟨pde, -, h⟩ := Option.bind_eq_some_iff.mp h
  split_ifs at h with hpresent
  · cases h
    exact Or.inl rfl
  dsimp only at h
  split_ifs at h with hout
  · cases h
    exact Or.inr rfl
  · obtain ⟨m₁, hstore, h⟩ := Option.bind_eq_some_iff.mp h
    obtain ⟨m₂, hclear, h⟩ := Option.bind_eq_some_iff.mp h
    cases h
    exact Or.inr ((Machine.clearPage_pmm hclear).trans (Machine.store_pmm hstore))

theorem vmmMapPage_pmm (hon : m.pagingEnabled = true) (h : vmmMapPage m virt phys flags = some (.ok, m')) :
    m'.pmm = m.pmm ∨ m'.pmm = (pmmAllocPage m.pmm).2 := by
  rw [vmmMapPage, if_pos hon] at h
  obtain ⟨⟨st, m₁⟩, htable, h⟩ := Option.bind_eq_some_iff.mp h
  have hpmm := ensureTable_pmm htable
  dsimp only at h
  split_ifs at h with hst
  · cases h
    exact hpmm
  obtain ⟨pte, -, h⟩ := Option.bind_eq_some_iff.mp h
  split_ifs at h with hother
  · cases h
  · obtain ⟨m₂, hstore, h⟩ := Option.bind_eq_some_iff.mp h
    cases h
    rwa [Machine.store_pmm hstore]

theorem Installed.table_none_iff {p f : Nat} (h : Installed m m' p f) (hm : Sound m) (hp : p < pageLimit)
    {k : Nat} (hk : k < 1023) (hkeep : ∀ t, m.table k = some t → m'.table k = some t) :
    m'.table k = none ↔ m.table k = none ∧ p / 1024 ≠ k ∧ p ≠ windowPage + k := by
  obtain ⟨hlimit, hmod⟩ := windowPage_add hk
  constructor
  · intro hnone
    refine ⟨?_, ?_, ?_⟩
    · by_contra hsome
      obtain ⟨t, ht⟩ := Option.ne_none_iff_exists'.mp hsome
      rw [hkeep t ht] at hnone
      cases hnone
    · rintro rfl
      obtain ⟨t, ht⟩ := table_of_tr h.done
      rw [hnone] at ht
      cases ht
    · rintro rfl
      have hdone := h.done
      rw [h.sound.tr_window (Nat.le_add_right _ _) hp, hmod, hnone] at hdone
      cases hdone
  · rintro ⟨hnone, hdir, hshown⟩
    rcases Nat.lt_or_ge p windowPage with hlt | hge
    · rw [h.others hlt k (by omega) hdir.symm]
      exact hnone
    · have hbefore := hm.tr_window (Nat.le_add_right windowPage k) hlimit
      have hafter := h.sound.tr_window (Nat.le_add_right windowPage k) hlimit
      rw [hmod] at hbefore hafter
      rw [← hafter]
      exact h.empty _ hlimit hshown.symm (by omega) (hbefore.trans hnone)

/-- One page is mapped to the frame that was taken for it, or is refused. -/
theorem vmmMapPage_supply (h : Booted m) {q : BitmapAllocator} (ht : Taken m.pmm q (Nat.nth (Free m.pmm) 0) 1)
    (hq : WellFormed q) (hspent : Spent m.pmm q 1) (hv : virt < 2 ^ 32) (hflags : flags % 2 = 1) :
    (∃ st, st ≠ .ok ∧ vmmMapPage { m with pmm := q } virt (Nat.nth (Free m.pmm) 0 * 4096) flags =
        some (st, { m with pmm := q }) ∧ Refused m ∅ (virt / 4096)) ∨
      ∃ m', vmmMapPage { m with pmm := q } virt (Nat.nth (Free m.pmm) 0 * 4096) flags = some (.ok, m') ∧
        ¬ Refused m ∅ (virt / 4096) ∧ Supplied m m' {virt / 4096} := by
  have htotal := h.pmm.total_le
  have hfits := ht.fits
  have hone := hspent.freePages_eq
  have hnext : framesFor m ∅ = 0 := framesFor_empty m
  have hp := page_lt_limit hv
  have htake := h.toSound.take ht hq
  have howned := h.toSound.taken_owned ht le_rfl (Nat.lt_succ_self _)
  generalize hframe : Nat.nth (Free m.pmm) 0 = f at *
  have hfdiv : f * 4096 / 4096 = f := Nat.mul_div_cancel f (by decide)
  rcases @vmmMapPage_anywhere _ htake.sound virt (f * 4096) flags hv (by omega) (by rw [hfdiv]; exact howned)
    hflags with ⟨st, hst, hrun, hwhy⟩ | ⟨m', hrun, hm⟩
  · refine Or.inl ⟨st, hst, hrun, ?_⟩
    rw [hfdiv] at hwhy
    rcases hwhy with ⟨g, hg, hne⟩ | ⟨hnone, hfull⟩
    · refine Or.inl ⟨g, hg, ?_⟩
      rwa [hnext, hframe]
    · refine Or.inr (Or.inr (Or.inr ?_))
      have hzero : q.freePages = 0 := Nat.eq_zero_of_not_pos fun hpos => by
        obtain ⟨b, hb⟩ := hq.exists_free_iff.mpr hpos
        exact hfull b hb
      have htable : m.table (virt / 4096 / 1024) = none := hnone
      rw [insert_empty_eq, framesFor_singleton, if_pos htable]
      omega
  · rw [hfdiv] at hm
    have hlaid := ((Laid.start h.toSound (virt / 4096) fun _ => f).setPmm htake.sound htake.total htake.free).map
      hp hm Iff.rfl (ht.was_free 0 one_pos) howned
    have hquiet : Quiet ({virt / 4096} : Finset Nat) m m' := hlaid.toQuiet.mono fun x hx => by
      obtain ⟨hlo, hhi⟩ := hx
      rw [Finset.coe_singleton, Set.mem_singleton_iff]
      omega
    have hspent' : Spent m.pmm m'.pmm (framesFor m {virt / 4096}) := by
      rw [framesFor_singleton]
      cases hm.grant with
      | kept hsome hsame =>
          rw [if_neg (show m.table (virt / 4096 / 1024) ≠ none from hsome), hsame]
          exact hspent
      | added t hnone ht' _ =>
          rw [if_pos (show m.table (virt / 4096 / 1024) = none from hnone)]
          refine hspent.trans ?_
          have hless : m'.pmm.freePages + 1 = q.freePages := ht'.freePages_eq
          rcases vmmMapPage_pmm htake.sound.enabled hrun with hsame | hgrant
          · have hcount : m'.pmm.freePages = q.freePages := congrArg _ hsame
            omega
          · rcases pmmAllocPage_spent hq with ⟨halloc, hzero⟩ | ⟨q', halloc, -, -, hspent'⟩
            · omega
            · have hpmm : m'.pmm = q' := hgrant.trans (congrArg Prod.snd halloc)
              rwa [hpmm]
    refine Or.inr ⟨m', hrun, ?_, hquiet, hspent', fun k hk => ?_, fun x hx => ?_⟩
    · rintro (⟨g, hg, hne⟩ | hin | ⟨x, hx, -⟩ | hfew)
      · rcases hm.before with hnone | hsome
        · exact Option.some_ne_none g (hg.symm.trans hnone)
        · rw [hnext, hframe] at hne
          exact hne (Option.some.inj (hg.symm.trans hsome))
      · exact Finset.notMem_empty _ hin
      · exact Finset.notMem_empty _ hx
      · rw [insert_empty_eq] at hfew
        have hcount := hspent'.freePages_eq
        omega
    · rw [hm.table_none_iff htake.sound hp hk fun t => hquiet.keepsTable h.toSound hk]
      simp only [Finset.mem_singleton, forall_eq]
      exact Iff.rfl
    · obtain rfl := Finset.mem_singleton.mp hx
      have hdone := hlaid.done 0 one_pos
      exact ⟨f, hdone, (hlaid.fresh 0 one_pos).2⟩

end Call

end Frostix.Vmm
