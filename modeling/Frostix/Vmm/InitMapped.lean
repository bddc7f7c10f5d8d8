import Frostix.Vmm.Init

/-!
What is mapped when `vmm_init` switches paging on. Page tables are taken from the page
allocator as they are needed, one for each 4 MiB, until it has no frame left: a page that
was asked for is mapped exactly if its table was granted. -/
namespace Frostix.Vmm
open Machine32 Pmm Quota

def Machine.dirTable (m : Machine) (t : Nat) : Option Nat := decode (m.word m.kernelPageDirectory t)

/-- The state of the mapping phase: from `start`, the page tables `held` have been added and
exactly the pages in `shown` are mapped, each at its own address. -/
structure Mapping (start m : Machine) (held : Finset Nat) (shown : Nat → Prop) : Prop where
  off : m.pagingEnabled = false
  directory : m.kernelPageDirectory = start.kernelPageDirectory
  pmm : WellFormed m.pmm
  bitsAddr : m.pmm.bitsAddr = start.pmm.bitsAddr
  size : m.pmm.size = start.pmm.size
  budget : m.pmm.freePages + held.card = start.pmm.freePages
  free : ∀ b, Free m.pmm b → Free start.pmm b
  /-- Only the directory and free frames have been written. -/
  kept : ∀ f i, ¬ Free start.pmm f → f ≠ start.kernelPageDirectory → m.word f i = start.word f i
  held_iff : ∀ t < 1024, m.dirTable t ≠ none ↔ t ∈ held
  fresh : ∀ t < 1024, ∀ f, m.dirTable t = some f → Free start.pmm f ∧ ¬ Free m.pmm f
  apart : ∀ s < 1024, ∀ t < 1024, ∀ f, m.dirTable s = some f → m.dirTable t = some f → s = t
  within : ∀ p, shown p → tableOf p ∈ held
  mapped : ∀ t < 1024, ∀ f, m.dirTable t = some f → ∀ j < 1024, shown (t * 1024 + j) →
    m.slot f j = some (t * 1024 + j)
  unmapped : ∀ t < 1024, ∀ f, m.dirTable t = some f → ∀ j < 1024, ¬ shown (t * 1024 + j) →
    m.slot f j = none

theorem pmmAllocPage_bitsAddr (p : BitmapAllocator) : (pmmAllocPage p).2.bitsAddr = p.bitsAddr := by
  unfold pmmAllocPage
  dsimp only
  split_ifs
  · rfl
  · rfl
  · exact bitmapSetBit_bitsAddr p _

theorem initFlags_odd : initFlags % 2 = 1 := rfl

/-- The machine with a new empty page table `b` in slot `t` of the kernel directory. -/
def Machine.addTable (m : Machine) (q : BitmapAllocator) (t b : Nat) : Machine :=
  ({ m with pmm := q }.setWord m.kernelPageDirectory t (makeEntry (b * 4096) initFlags)).clearFrame b

section AddTable
variable {m : Machine} {q : BitmapAllocator} {t b : Nat}

theorem addTable_word (f i : Nat) : (m.addTable q t b).word f i =
    if f = b ∧ i < 1024 then 0
    else if f = m.kernelPageDirectory ∧ i = t then makeEntry (b * 4096) initFlags % 2 ^ 32
    else m.word f i := by
  rw [Machine.addTable, (clearFrame_spec _ b).1, word_setWord]
  rfl

theorem addTable_kernelPageDirectory : (m.addTable q t b).kernelPageDirectory = m.kernelPageDirectory :=
  clearFrame_kernelPageDirectory _ b

theorem addTable_pmm : (m.addTable q t b).pmm = q := (clearFrame_spec _ b).2.2.1

theorem addTable_pagingEnabled : (m.addTable q t b).pagingEnabled = m.pagingEnabled :=
  (clearFrame_spec _ b).2.2.2

theorem addTable_dirTable (hb : b < 2 ^ 20) (hdir : b ≠ m.kernelPageDirectory) (k : Nat) :
    (m.addTable q t b).dirTable k = if k = t then some b else m.dirTable k := by
  unfold Machine.dirTable
  rw [addTable_kernelPageDirectory, addTable_word, if_neg fun h => hdir h.1.symm]
  by_cases hk : k = t
  · rw [if_pos ⟨rfl, hk⟩, if_pos hk, decode_makeEntry (by omega) initFlags_odd, Nat.mul_div_cancel b (by decide)]
  · rw [if_neg fun h => hk h.2, if_neg hk]

end AddTable

section Steps
variable {start m : Machine} {held : Finset Nat} {shown : Nat → Prop}

theorem Mapping.congr (h : Mapping start m held shown) {shown' : Nat → Prop}
    (hiff : ∀ p, shown p ↔ shown' p) : Mapping start m held shown' := by
  have heq : shown = shown' := funext fun p => propext (hiff p)
  rw [← heq]
  exact h

theorem Mapping.ne_directory (h : Mapping start m held shown)
    (hdir : ¬ Free start.pmm start.kernelPageDirectory) {t f : Nat} (ht : t < 1024)
    (hf : m.dirTable t = some f) : f ≠ m.kernelPageDirectory := by
  rw [h.directory]
  rintro rfl
  exact hdir (h.fresh t ht _ hf).1

/-- A new table is empty: nothing that is shown needs it. -/
theorem Mapping.addTable (h : Mapping start m held shown)
    (hdir : ¬ Free start.pmm start.kernelPageDirectory) {t b : Nat} {q : BitmapAllocator}
    (ht : t < 1024) (hnone : m.dirTable t = none) (htaken : Taken m.pmm q b 1) (hq : WellFormed q)
    (haddr : q.bitsAddr = m.pmm.bitsAddr) :
    Mapping start (m.addTable q t b) (insert t held) shown ∧
      (m.addTable q t b).dirTable t = some b := by
  have hfits := htaken.fits
  have htotal := h.pmm.total_le
  have hnew : Free m.pmm b := by simpa using htaken.was_free 0 (by decide)
  have hbdir : b ≠ m.kernelPageDirectory := by
    rw [h.directory]
    rintro rfl
    exact hdir (h.free _ hnew)
  have htable := fun k => @addTable_dirTable m q t b (by omega) hbdir k
  have hnot : t ∉ held := fun hmem => (h.held_iff t ht).mpr hmem hnone
  have hold : ∀ k < 1024, ∀ f, m.dirTable k = some f → f ≠ b := by
    rintro k hk f hf rfl
    exact (h.fresh k hk f hf).2 hnew
  have hslot : ∀ k < 1024, ∀ f, m.dirTable k = some f → ∀ j, (m.addTable q t b).slot f j = m.slot f j := by
    intro k hk f hf j
    unfold Machine.slot
    rw [addTable_word, if_neg fun hc => hold k hk f hf hc.1,
      if_neg fun hc => h.ne_directory hdir hk hf hc.1]
  have hcases : ∀ k f, (m.addTable q t b).dirTable k = some f → k = t ∧ f = b ∨ k ≠ t ∧
    m.dirTable k = some f := by
    intro k f hf
    rw [htable] at hf
    split_ifs at hf with hk
    · exact Or.inl ⟨hk, (Option.some.inj hf).symm⟩
    · exact Or.inr ⟨hk, hf⟩
  refine ⟨?_, by rw [htable, if_pos rfl]⟩
  constructor
  case off => exact addTable_pagingEnabled.trans h.off
  case directory => exact addTable_kernelPageDirectory.trans h.directory
  case pmm => rwa [addTable_pmm]
  case bitsAddr => rw [addTable_pmm, haddr, h.bitsAddr]
  case size => rw [addTable_pmm, htaken.size_eq, h.size]
  case budget =>
      rw [addTable_pmm, Finset.card_insert_of_notMem hnot, ← h.budget, ← htaken.freePages_eq]
      omega
  case free =>
      intro c hc
      rw [addTable_pmm, htaken.free_iff] at hc
      exact h.free c hc.1
  case kept =>
      intro f i hf hfdir
      rw [addTable_word, if_neg ?_, if_neg ?_]
      · exact h.kept f i hf hfdir
      · rintro ⟨rfl, -⟩
        exact hfdir h.directory
      · rintro ⟨rfl, -⟩
        exact hf (h.free _ hnew)
  case held_iff =>
      intro k hk
      rw [htable, Finset.mem_insert]
      split_ifs with heq
      · simp [heq]
      · simp [heq, h.held_iff k hk]
  case fresh =>
      intro k hk f hf
      rw [addTable_pmm, htaken.free_iff]
      rcases hcases k f hf with ⟨-, rfl⟩ | ⟨-, hf'⟩
      · exact ⟨h.free f hnew, fun hc => hc.2 (by omega)⟩
      · exact ⟨(h.fresh k hk f hf').1, fun hc => (h.fresh k hk f hf').2 hc.1⟩
  case apart =>
      intro k hk l hl f hf hf'
      rcases hcases k f hf with ⟨rfl, rfl⟩ | ⟨-, hk'⟩
      · rcases hcases l f hf' with ⟨rfl, -⟩ | ⟨-, hl'⟩
        · rfl
        · exact absurd rfl (hold l hl f hl')
      · rcases hcases l f hf' with ⟨rfl, rfl⟩ | ⟨-, hl'⟩
        · exact absurd rfl (hold k hk f hk')
        · exact h.apart k hk l hl f hk' hl'
  case within =>
      intro p hp
      exact Finset.mem_insert_of_mem (h.within p hp)
  case mapped =>
      intro k hk f hf j hj hp
      rcases hcases k f hf with ⟨rfl, rfl⟩ | ⟨-, hf'⟩
      · have hin := h.within _ hp
        rw [show tableOf (k * 1024 + j) = k by unfold tableOf; omega] at hin
        exact absurd hin hnot
      · rw [hslot k hk f hf']
        exact h.mapped k hk f hf' j hj hp
  case unmapped =>
      intro k hk f hf j hj hp
      rcases hcases k f hf with ⟨rfl, rfl⟩ | ⟨-, hf'⟩
      · unfold Machine.slot
        rw [addTable_word, if_pos ⟨rfl, hj⟩]
        rfl
      · rw [hslot k hk f hf']
        exact h.unmapped k hk f hf' j hj hp

/-- Writing the entry of a page whose table is there. -/
theorem Mapping.setEntry (h : Mapping start m held shown)
    (hdir : ¬ Free start.pmm start.kernelPageDirectory) {t f j phys : Nat} (ht : t < 1024) (hj : j < 1024)
    (hf : m.dirTable t = some f) (hphys : phys < 2 ^ 32) (hpage : phys / 4096 = t * 1024 + j) :
    Mapping start (m.setWord f j (makeEntry phys initFlags)) held (fun p => shown p ∨ p = t * 1024 + j) := by
  have hfdir := h.ne_directory hdir ht hf
  have hfree := (h.fresh t ht f hf).1
  have htable : ∀ k, (m.setWord f j (makeEntry phys initFlags)).dirTable k = m.dirTable k := by
    intro k
    have hsame : (m.setWord f j (makeEntry phys initFlags)).kernelPageDirectory = m.kernelPageDirectory := rfl
    unfold Machine.dirTable
    rw [hsame, word_setWord, if_neg fun hc => hfdir hc.1.symm]
  have hother : ∀ k < 1024, ∀ g, m.dirTable k = some g → ∀ i < 1024, ¬ (k = t ∧ i = j) →
      (m.setWord f j (makeEntry phys initFlags)).slot g i = m.slot g i := by
    intro k hk g hg i hi hne
    refine slot_setWord_of_ne m _ ?_
    rintro ⟨rfl, rfl⟩
    exact hne ⟨h.apart k hk t ht g hg hf, rfl⟩
  have hself : (m.setWord f j (makeEntry phys initFlags)).slot f j = some (t * 1024 + j) := by
    rw [← hpage]
    exact slot_setWord_self m hphys initFlags_odd
  constructor
  case off => exact h.off
  case directory => exact h.directory
  case pmm => exact h.pmm
  case bitsAddr => exact h.bitsAddr
  case size => exact h.size
  case budget => exact h.budget
  case free => exact h.free
  case kept =>
      intro g i hg hgdir
      rw [word_setWord, if_neg]
      · exact h.kept g i hg hgdir
      · rintro ⟨rfl, -⟩
        exact hg hfree
  case held_iff =>
      intro k hk
      rw [htable]
      exact h.held_iff k hk
  case fresh =>
      intro k hk g hg
      rw [htable] at hg
      exact h.fresh k hk g hg
  case apart =>
      intro k hk l hl g hg hg'
      rw [htable] at hg hg'
      exact h.apart k hk l hl g hg hg'
  case within =>
      rintro p (hp | rfl)
      · exact h.within p hp
      · rw [← h.held_iff _ (by unfold tableOf; omega),
          show tableOf (t * 1024 + j) = t by unfold tableOf; omega, hf]
        exact Option.some_ne_none f
  case mapped =>
      intro k hk g hg i hi hp
      rw [htable] at hg
      by_cases heq : k = t ∧ i = j
      · obtain ⟨rfl, rfl⟩ := heq
        rw [Option.some.inj (hg.symm.trans hf)]
        exact hself
      · rw [hother k hk g hg i hi heq]
        exact h.mapped k hk g hg i hi (hp.resolve_right (by omega))
  case unmapped =>
      intro k hk g hg i hi hp
      rw [htable] at hg
      have hne : ¬ (k = t ∧ i = j) := by
        rintro ⟨rfl, rfl⟩
        exact hp (Or.inr rfl)
      rw [hother k hk g hg i hi hne]
      exact h.unmapped k hk g hg i hi fun hc => hp (Or.inl hc)

/-- The three things that can happen where the code needs the page table `t`. -/
theorem Mapping.table_cases (h : Mapping start m held shown)
    (hdir : ¬ Free start.pmm start.kernelPageDirectory) {t : Nat} (ht : t < 1024) :
    (∃ f, m.dirTable t = some f ∧ t ∈ held ∧ grant start.pmm.freePages held t = held) ∨
    (m.dirTable t = none ∧ pmmAllocPage m.pmm = (0, m.pmm) ∧
      t ∉ grant start.pmm.freePages held t ∧ grant start.pmm.freePages held t = held) ∨
    ∃ b q, m.dirTable t = none ∧ pmmAllocPage m.pmm = (b * 4096, q) ∧ 0 < b ∧
      t ∈ grant start.pmm.freePages held t ∧
      Mapping start (m.addTable q t b) (grant start.pmm.freePages held t) shown ∧
      (m.addTable q t b).dirTable t = some b := by
  cases htable : m.dirTable t with
  | some f =>
      have hmem : t ∈ held := (h.held_iff t ht).mp (by rw [htable]; exact Option.some_ne_none f)
      exact Or.inl ⟨f, rfl, hmem, grant_of_mem hmem⟩
  | none =>
      right
      have hnot : t ∉ held := fun hmem => (h.held_iff t ht).mpr hmem htable
      have hbudget := h.budget
      rcases pmmAllocPage_spec h.pmm with ⟨hout, hnofree⟩ | ⟨b, q, halloc, htaken, hq⟩
      · left
        have hzero : m.pmm.freePages = 0 := by
          rw [h.pmm.free_count, Finset.card_eq_zero, Finset.eq_empty_iff_forall_notMem]
          exact fun b hb => hnofree b (mem_freeSet.mp hb)
        have hfull : grant start.pmm.freePages held t = held := grant_of_full (by omega)
        rw [hfull]
        exact ⟨rfl, hout, hnot, rfl⟩
      · right
        have hcount := htaken.freePages_eq
        have hgrant : grant start.pmm.freePages held t = insert t held := grant_of_lt (by omega)
        have haddr : q.bitsAddr = m.pmm.bitsAddr := by
          rw [← pmmAllocPage_bitsAddr m.pmm, halloc]
        obtain ⟨hadded, hentered⟩ := h.addTable hdir ht htable htaken hq haddr
        rw [hgrant]
        exact ⟨b, q, rfl, halloc, htaken.pos, Finset.mem_insert_self t held, hadded, hentered⟩

theorem dirTable_eq_some {t f : Nat} (h : m.dirTable t = some f) :
    present (m.word m.kernelPageDirectory t) = true ∧ entryFrame (m.word m.kernelPageDirectory t) = f :=
  decode_eq_some.mp h

theorem dirTable_eq_none {t : Nat} (h : m.dirTable t = none) :
    present (m.word m.kernelPageDirectory t) = false := decode_eq_none.mp h

theorem Mapping.ensureTableDirect (h : Mapping start m held shown)
    (hdir : ¬ Free start.pmm start.kernelPageDirectory) {virt : Nat} (hv : virt < 2 ^ 32) :
    ∃ status m', ensureTableDirect m virt = (status, m') ∧
      Mapping start m' (grant start.pmm.freePages held (pdIndex virt)) shown ∧
      (status = .ok ↔ pdIndex virt ∈ grant start.pmm.freePages held (pdIndex virt)) := by
  have ht : pdIndex virt < 1024 := by unfold pdIndex; omega
  unfold Vmm.ensureTableDirect
  dsimp only
  rcases h.table_cases hdir ht with ⟨f, hf, hmem, hsame⟩ | ⟨hnone, hout, hnot, hsame⟩ |
    ⟨b, q, hnone, halloc, hpos, hmem, hadded, -⟩
  · rw [if_pos (dirTable_eq_some hf).1, hsame]
    exact ⟨.ok, m, rfl, h, iff_of_true rfl hmem⟩
  · rw [if_neg (by rw [dirTable_eq_none hnone]; exact Bool.false_ne_true), hout, if_pos rfl]
    refine ⟨.outOfMemory, m, rfl, by rwa [hsame], iff_of_false (by decide) hnot⟩
  · rw [if_neg (by rw [dirTable_eq_none hnone]; exact Bool.false_ne_true), halloc, if_neg (by omega)]
    refine ⟨.ok, m.addTable q (pdIndex virt) b, ?_, hadded, iff_of_true rfl hmem⟩
    rw [Machine.addTable, Nat.mul_div_cancel b (by decide)]
    rfl

theorem tableOf_page (virt : Nat) : tableOf (virt / 4096) = pdIndex virt := (pdIndex_eq virt).symm

theorem Mapping.mapPage (h : Mapping start m held shown)
    (hdir : ¬ Free start.pmm start.kernelPageDirectory) {virt : Nat} (hv : virt < 2 ^ 32) :
    ∃ status m', vmmMapPage m virt virt initFlags = some (status, m') ∧
      Mapping start m' (grant start.pmm.freePages held (tableOf (virt / 4096)))
        (fun p => shown p ∨
          p = virt / 4096 ∧ tableOf (virt / 4096) ∈ grant start.pmm.freePages held (tableOf (virt / 4096))) ∧
      (status = .ok ↔ tableOf (virt / 4096) ∈ grant start.pmm.freePages held (tableOf (virt / 4096))) := by
  obtain ⟨status, m', hrun, hmap, hstatus⟩ := h.ensureTableDirect hdir hv
  unfold vmmMapPage
  rw [h.off, if_neg Bool.false_ne_true, hrun, tableOf_page]
  dsimp only
  by_cases hok : status = .ok
  · rw [if_neg (not_not.mpr hok)]
    have hmem := hstatus.mp hok
    have ht : pdIndex virt < 1024 := by unfold pdIndex; omega
    obtain ⟨f, hf⟩ := Option.ne_none_iff_exists'.mp ((hmap.held_iff _ ht).mpr hmem)
    have hentry := hmap.setEntry hdir ht (ptIndex_lt virt) hf hv (by unfold pdIndex ptIndex; omega)
    rw [(dirTable_eq_some hf).2]
    refine ⟨.ok, _, rfl, hentry.congr ?_, iff_of_true rfl hmem⟩
    intro p
    have hpage : pdIndex virt * 1024 + ptIndex virt = virt / 4096 := by unfold pdIndex ptIndex; omega
    rw [hpage, and_iff_left hmem]
  · rw [if_pos hok]
    have hnot := fun hmem => hok (hstatus.mpr hmem)
    refine ⟨status, m', rfl, hmap.congr ?_, hstatus⟩
    intro p
    exact (or_iff_left fun hc => hnot hc.2).symm

theorem Mapping.lowTable (h : Mapping start m held shown)
    (hdir : ¬ Free start.pmm start.kernelPageDirectory) :
    ∃ status f m', lowTable m = (status, f, m') ∧
      (status = .ok ↔ 0 ∈ grant start.pmm.freePages held 0) ∧
      (status = .ok → m'.dirTable 0 = some f ∧
        Mapping start m' (grant start.pmm.freePages held 0) shown) := by
  unfold Vmm.lowTable
  dsimp only
  rcases h.table_cases hdir (t := 0) (by decide) with ⟨f, hf, hmem, hsame⟩ | ⟨hnone, hout, hnot, hsame⟩ |
    ⟨b, q, hnone, halloc, hpos, hmem, hadded, hentered⟩
  · obtain ⟨hpresent, hframe⟩ := dirTable_eq_some hf
    rw [if_pos hpresent, hframe, hsame]
    exact ⟨.ok, f, m, rfl, iff_of_true rfl hmem, fun _ => ⟨hf, h⟩⟩
  · rw [if_neg (by rw [dirTable_eq_none hnone]; exact Bool.false_ne_true), hout, if_pos rfl]
    exact ⟨.outOfMemory, 0, m, rfl, iff_of_false (by decide) hnot, fun hok => absurd hok (by decide)⟩
  · rw [if_neg (by rw [dirTable_eq_none hnone]; exact Bool.false_ne_true), halloc, if_neg (by omega),
      Nat.mul_div_cancel b (by decide)]
    exact ⟨.ok, b, m.addTable q 0 b, rfl, iff_of_true rfl hmem, fun _ => ⟨hentered, hadded⟩⟩

/-- After the loop the whole first 1 MiB is mapped. -/
theorem Mapping.fillLow (h : Mapping start m held shown)
    (hdir : ¬ Free start.pmm start.kernelPageDirectory) {f : Nat} (hf : m.dirTable 0 = some f) :
    Mapping start (fillLow f m) held (fun p => shown p ∨ p < 256) := by
  unfold Vmm.fillLow
  refine (Loop.foldl_range (fun n (m' : Machine) => m'.dirTable 0 = some f ∧
    Mapping start m' held (fun p => shown p ∨ p < n)) ?_ ?_).2
  · refine ⟨hf, h.congr fun p => ?_⟩
    exact (or_iff_left (Nat.not_lt_zero p)).symm
  · rintro i hi m' ⟨hf', hmap⟩
    split_ifs with hpresent
    · -- only a page that is shown has a present entry
      have hin : shown i ∨ i < i := by
        by_contra hnot
        have hnone := hmap.unmapped 0 (by decide) f hf' i (by omega) (by rwa [Nat.zero_mul, Nat.zero_add])
        rw [Machine.slot, decode_eq_none] at hnone
        rw [hnone] at hpresent
        cases hpresent
      refine ⟨hf', hmap.congr fun p => ?_⟩
      constructor
      · rintro (hp | hp)
        · exact Or.inl hp
        · exact Or.inr (by omega)
      · rintro (hp | hp)
        · exact Or.inl hp
        · rcases Nat.lt_succ_iff_lt_or_eq.mp hp with hlt | rfl
          · exact Or.inr hlt
          · exact hin
    · have hentry : Mapping start (m'.setWord f i (makeEntry (i * 4096) initFlags)) held
          (fun p => (shown p ∨ p < i) ∨ p = 0 * 1024 + i) :=
        hmap.setEntry hdir (by decide) (by omega) hf' (by omega) (by omega)
      refine ⟨?_, hentry.congr fun p => ?_⟩
      · have hfdir := hmap.ne_directory hdir (by decide) hf'
        have hsame : (m'.setWord f i (makeEntry (i * 4096) initFlags)).kernelPageDirectory =
            m'.kernelPageDirectory := rfl
        unfold Machine.dirTable
        rw [hsame, word_setWord, if_neg fun hc => hfdir hc.1.symm]
        exact hf'
      · rw [or_assoc]
        exact or_congr_right (by omega)

end Steps

/-- The tables granted for a list of pages, by the free frames of the start. -/
def grantedTables (start : Machine) (pages : List Nat) : Finset Nat :=
  granted tableOf start.pmm.freePages pages

def PageServed (start : Machine) (pages : List Nat) (page : Nat) : Prop :=
  Served tableOf start.pmm.freePages pages page

/-- The state after the pages of a list have been asked for in turn. -/
def Requested (start m : Machine) (pages : List Nat) : Prop :=
  Mapping start m (grantedTables start pages) (PageServed start pages)

section Requests
variable {start m : Machine} {pages : List Nat}

theorem Requested.mapPage (h : Requested start m pages)
    (hdir : ¬ Free start.pmm start.kernelPageDirectory) {virt : Nat} (hv : virt < 2 ^ 32) :
    ∃ status m', vmmMapPage m virt virt initFlags = some (status, m') ∧
      Requested start m' (pages ++ [virt / 4096]) ∧
      (status = .ok ↔ tableOf (virt / 4096) ∈ grantedTables start (pages ++ [virt / 4096])) := by
  obtain ⟨status, m', hrun, hmap, hstatus⟩ := Mapping.mapPage h hdir hv
  have hgrant : grantedTables start (pages ++ [virt / 4096]) =
      grant start.pmm.freePages (grantedTables start pages) (tableOf (virt / 4096)) := granted_snoc
  refine ⟨status, m', hrun, ?_, by rwa [hgrant]⟩
  unfold Requested
  rw [hgrant]
  refine hmap.congr fun p => ?_
  rw [← hgrant]
  exact served_snoc_iff.symm

theorem pagesFrom_succ (first i left : Nat) :
    pagesFrom first i (left + 1) = wrap (first + i * 4096) / 4096 :: pagesFrom first (i + 1) left := by
  unfold pagesFrom
  rw [List.range'_succ]
  rfl

theorem Requested.mapIgnoring (h : Requested start m pages)
    (hdir : ¬ Free start.pmm start.kernelPageDirectory) (first left i : Nat) :
    ∃ m', mapIgnoring first left i m = some m' ∧ Requested start m' (pages ++ pagesFrom first i left) := by
  induction left generalizing i m pages with
  | zero => exact ⟨m, rfl, by rwa [show pagesFrom first i 0 = [] from rfl, List.append_nil]⟩
  | succ left ih =>
      obtain ⟨status, m₁, hrun, hreq, -⟩ := h.mapPage hdir (wrap_lt (first + i * 4096))
      obtain ⟨m₂, hrest, hreq'⟩ := ih hreq (i + 1)
      refine ⟨m₂, ?_, ?_⟩
      · rw [Vmm.mapIgnoring, hrun]
        exact hrest
      · rwa [pagesFrom_succ, ← List.singleton_append, ← List.append_assoc]

/-- The loop that returns stops at the first page whose table is not granted. -/
theorem Requested.mapOrReturn (h : Requested start m pages)
    (hdir : ¬ Free start.pmm start.kernelPageDirectory) (first left i : Nat) :
    ∃ status m', mapOrReturn first left i m = some (status, m') ∧
      (status = .ok ↔ ∀ p ∈ pagesFrom first i left,
        tableOf p ∈ grantedTables start (pages ++ pagesFrom first i left)) ∧
      (status = .ok → Requested start m' (pages ++ pagesFrom first i left)) := by
  induction left generalizing i m pages with
  | zero =>
      refine ⟨.ok, m, rfl, iff_of_true rfl fun p hp => absurd hp List.not_mem_nil, fun _ => ?_⟩
      rwa [show pagesFrom first i 0 = [] from rfl, List.append_nil]
  | succ left ih =>
      obtain ⟨status, m₁, hrun, hreq, hstatus⟩ := h.mapPage hdir (wrap_lt (first + i * 4096))
      have hsplit : pages ++ pagesFrom first i (left + 1) =
          pages ++ [wrap (first + i * 4096) / 4096] ++ pagesFrom first (i + 1) left := by
        rw [pagesFrom_succ, List.append_assoc, List.singleton_append]
      rw [hsplit, Vmm.mapOrReturn, hrun]
      -- the page asked for now keeps what it got
      have hthis : status = .ok ↔ tableOf (wrap (first + i * 4096) / 4096) ∈
          grantedTables start (pages ++ [wrap (first + i * 4096) / 4096] ++ pagesFrom first (i + 1) left) :=
        hstatus.trans (mem_granted_append_iff (List.mem_append_right _ (List.mem_singleton.mpr rfl))).symm
      by_cases hok : status = .ok
      · obtain ⟨status', m₂, hrest, hstatus', hreq'⟩ := ih hreq (i + 1)
        refine ⟨status', m₂, ?_, ?_, hreq'⟩
        · rw [Option.bind_eq_bind, Option.bind_some]
          exact (if_neg (not_not.mpr hok)).trans hrest
        · rw [hstatus', pagesFrom_succ, List.forall_mem_cons, and_iff_right (hthis.mp hok)]
      · refine ⟨status, m₁, ?_, ?_, fun hc => absurd hc hok⟩
        · rw [Option.bind_eq_bind, Option.bind_some]
          exact if_pos hok
        · refine iff_of_false hok fun hall => hok (hthis.mpr (hall _ ?_))
          rw [pagesFrom_succ]
          exact List.mem_cons_self

theorem range_low : List.range 256 = [0] ++ List.range' 1 255 := by
  rw [List.range_eq_range']
  exact List.range'_succ

theorem grantedTables_low (start : Machine) (pages : List Nat) :
    grantedTables start (pages ++ List.range 256) =
      grant start.pmm.freePages (grantedTables start pages) 0 := by
  have hfirst : grantedTables start (pages ++ [0]) = grant start.pmm.freePages (grantedTables start pages) 0 :=
    granted_snoc
  rw [range_low, ← List.append_assoc, ← hfirst]
  rcases @mem_granted_or_full _ _ _ tableOf start.pmm.freePages _ _
    (List.mem_append_right pages (List.mem_singleton.mpr rfl)) with hmem | hfull
  · refine granted_append_of_mem fun s hs => ?_
    rw [List.mem_range'_1] at hs
    rwa [show tableOf s = tableOf 0 by unfold tableOf; omega]
  · exact granted_append_of_full hfull

theorem Requested.low (h : Requested start m pages) (hdir : ¬ Free start.pmm start.kernelPageDirectory) :
    ∃ status f m', lowTable m = (status, f, m') ∧
      (status = .ok ↔ 0 ∈ grantedTables start (pages ++ List.range 256)) ∧
      (status = .ok → Requested start (fillLow f m') (pages ++ List.range 256)) := by
  obtain ⟨status, f, m', hrun, hstatus, hok⟩ := Mapping.lowTable h hdir
  rw [← grantedTables_low] at hstatus hok
  refine ⟨status, f, m', hrun, hstatus, fun hs => ?_⟩
  obtain ⟨hf, hmap⟩ := hok hs
  refine (hmap.fillLow hdir hf).congr fun p => ?_
  unfold PageServed Served
  rw [List.mem_append, List.mem_range]
  constructor
  · rintro (⟨hp, hkey⟩ | hp)
    · exact ⟨Or.inl hp, granted_subset hkey⟩
    · refine ⟨Or.inr hp, ?_⟩
      rw [show tableOf p = 0 by unfold tableOf; omega]
      exact hstatus.mp hs
  · rintro ⟨hp | hp, hkey⟩
    · exact Or.inl ⟨hp, (mem_granted_append_iff hp).mp hkey⟩
    · exact Or.inr hp

end Requests

end Frostix.Vmm
