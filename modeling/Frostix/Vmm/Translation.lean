import Frostix.Lib.Transition
import Frostix.Pmm.WellFormed
import Frostix.Vmm.Paging

/-!
The translation function of a page directory and what the mapping functions do
to it. All accesses to page tables go through the recursive slot, so "only this
page changed" rests on the page tables being distinct frames that the page
allocator considers taken. -/
namespace Frostix.Vmm
open Machine32 Pmm

def decode (e : Nat) : Option Nat := if present e then some (entryFrame e) else none

/-- The frame of the page table in slot `i` of the directory. -/
def Machine.table (m : Machine) (i : Nat) : Option Nat := decode (m.word m.cr3 i)

/-- The frame in slot `j` of the page table in frame `f`. -/
def Machine.slot (m : Machine) (f j : Nat) : Option Nat := decode (m.word f j)

def Machine.tr (m : Machine) (page : Nat) : Option Nat :=
  (m.table (page / 1024)).bind fun f => m.slot f (page % 1024)

def windowPage : Nat := 1023 * 1024

/-- Page tables are marked frames, pairwise distinct and distinct from the
directory, and slot 1023 is the self-map. -/
structure TablesOk (m : Machine) : Prop where
  selfMap : m.table 1023 = some m.cr3
  marked : ∀ i < 1023, ∀ f, m.table i = some f → bitmapTestBit m.pmm f = true
  apart : ∀ i < 1023, ∀ j < 1023, ∀ f, m.table i = some f → m.table j = some f → i = j
  notDirectory : ∀ i < 1023, m.table i ≠ some m.cr3

/-- The invariant of the running kernel: the allocator is well-formed and the frame
of the directory is taken as well. -/
structure Sound (m : Machine) : Prop where
  enabled : m.pagingEnabled = true
  pmm : WellFormed m.pmm
  tables : TablesOk m
  directory : bitmapTestBit m.pmm m.cr3 = true

/-- What reading and writing the tables through the window rests on. -/
structure Distinct (m : Machine) : Prop where
  enabled : m.pagingEnabled = true
  selfMap : m.table 1023 = some m.cr3
  apart : ∀ i < 1023, ∀ j < 1023, ∀ f, m.table i = some f → m.table j = some f → i = j
  notDirectory : ∀ i < 1023, m.table i ≠ some m.cr3

theorem decode_eq_some {e f : Nat} : decode e = some f ↔ present e = true ∧ entryFrame e = f := by
  unfold decode
  split
  · simp [*]
  · simp [*]

theorem decode_eq_none {e : Nat} : decode e = none ↔ present e = false := by
  unfold decode
  split
  · simp [*]
  · simp [*]

theorem word_setWord (m : Machine) (f i v f' i' : Nat) :
    (m.setWord f i v).word f' i' = if f' = f ∧ i' = i then v % 2 ^ 32 else m.word f' i' := by
  unfold Machine.word Machine.setWord
  by_cases h : f' = f ∧ i' = i
  · simp [h]
  · simp [h]

@[simp] theorem setWord_cr3 (m : Machine) (f i v : Nat) : (m.setWord f i v).cr3 = m.cr3 := rfl

@[simp] theorem setWord_pmm (m : Machine) (f i v : Nat) : (m.setWord f i v).pmm = m.pmm := rfl

theorem clearFrame_spec (m : Machine) (f : Nat) :
    (∀ f' i, (m.clearFrame f).word f' i = if f' = f ∧ i < 1024 then 0 else m.word f' i) ∧
      (m.clearFrame f).cr3 = m.cr3 ∧ (m.clearFrame f).pmm = m.pmm ∧
      (m.clearFrame f).pagingEnabled = m.pagingEnabled := by
  unfold Machine.clearFrame
  apply Loop.foldl_range (fun n (m' : Machine) =>
    (∀ f' i, m'.word f' i = if f' = f ∧ i < n then 0 else m.word f' i) ∧
      m'.cr3 = m.cr3 ∧ m'.pmm = m.pmm ∧ m'.pagingEnabled = m.pagingEnabled)
  · exact ⟨fun f' i => by simp, rfl, rfl, rfl⟩
  · rintro n _ m' ⟨hword, hcr3, hpmm, hon⟩
    refine ⟨?_, hcr3, hpmm, hon⟩
    intro f' i
    rw [word_setWord, hword]
    by_cases hf : f' = f
    · subst hf
      by_cases hi : i = n
      · simp [hi]
      · have hiff : i < n ↔ i < n + 1 := by omega
        simp [hi, hiff]
    · simp [hf]

theorem present_makeEntry {phys flags : Nat} (hflags : flags % 2 = 1) :
    present (makeEntry phys flags) = true := by
  simp only [present, makeEntry, beq_iff_eq]
  omega

theorem entryFrame_makeEntry (phys flags : Nat) :
    entryFrame (makeEntry phys flags) = phys / 4096 := by
  unfold entryFrame makeEntry
  omega

theorem makeEntry_lt {phys : Nat} (hphys : phys < 2 ^ 32) (flags : Nat) :
    makeEntry phys flags < 2 ^ 32 := by
  unfold makeEntry
  omega

theorem decode_makeEntry {phys flags : Nat} (hphys : phys < 2 ^ 32) (hflags : flags % 2 = 1) :
    decode (makeEntry phys flags % 2 ^ 32) = some (phys / 4096) := by
  rw [Nat.mod_eq_of_lt (makeEntry_lt hphys flags)]
  exact decode_eq_some.mpr ⟨present_makeEntry hflags, entryFrame_makeEntry phys flags⟩

theorem slot_setWord_self (m : Machine) {f j phys flags : Nat} (hphys : phys < 2 ^ 32)
    (hflags : flags % 2 = 1) :
    (m.setWord f j (makeEntry phys flags)).slot f j = some (phys / 4096) := by
  unfold Machine.slot
  rw [word_setWord, if_pos ⟨rfl, rfl⟩, decode_makeEntry hphys hflags]

theorem slot_setWord_of_ne (m : Machine) {f j f' j' : Nat} (v : Nat) (h : ¬ (f' = f ∧ j' = j)) :
    (m.setWord f j v).slot f' j' = m.slot f' j' := by
  unfold Machine.slot
  rw [word_setWord, if_neg h]

theorem table_setWord_of_ne (m : Machine) {f j i : Nat} (v : Nat) (h : ¬ (m.cr3 = f ∧ i = j)) :
    (m.setWord f j v).table i = m.table i := by
  unfold Machine.table
  rw [setWord_cr3, word_setWord, if_neg h]

theorem table_setDirectory (m : Machine) (i v k : Nat) :
    (m.setWord m.cr3 i v).table k = if k = i then decode (v % 2 ^ 32) else m.table k := by
  unfold Machine.table
  rw [setWord_cr3, word_setWord]
  by_cases hk : k = i
  · rw [if_pos ⟨rfl, hk⟩, if_pos hk]
  · rw [if_neg fun hc => hk hc.2, if_neg hk]

/-- The page directory is visible at `PAGE_RECURSIVE_PD`. -/
theorem walk_directory {m : Machine} (h : m.table 1023 = some m.cr3) {i : Nat} (hi : i < 1024) :
    m.walk (pageRecursivePd + 4 * i) = some (m.cr3, i) := by
  have hdir : (pageRecursivePd + 4 * i) / 2 ^ 22 = 1023 := by unfold pageRecursivePd; omega
  have htab : (pageRecursivePd + 4 * i) / 4096 % 1024 = 1023 := by unfold pageRecursivePd; omega
  have hoff : (pageRecursivePd + 4 * i) % 4096 / 4 = i := by unfold pageRecursivePd; omega
  obtain ⟨hp, hframe⟩ := decode_eq_some.mp h
  unfold Machine.walk
  rw [hdir, htab, hoff]
  simp only [hp, if_true, hframe]

/-- The page table in slot `i` is visible in the window. -/
theorem walk_table {m : Machine} (h : m.table 1023 = some m.cr3) {i j f : Nat} (hi : i < 1024)
    (hj : j < 1024) (hf : m.table i = some f) :
    m.walk (pageRecursivePtBase + i * 4096 + 4 * j) = some (f, j) := by
  have hdir : (pageRecursivePtBase + i * 4096 + 4 * j) / 2 ^ 22 = 1023 := by
    unfold pageRecursivePtBase; omega
  have htab : (pageRecursivePtBase + i * 4096 + 4 * j) / 4096 % 1024 = i := by
    unfold pageRecursivePtBase; omega
  have hoff : (pageRecursivePtBase + i * 4096 + 4 * j) % 4096 / 4 = j := by
    unfold pageRecursivePtBase; omega
  obtain ⟨hp, hframe⟩ := decode_eq_some.mp h
  obtain ⟨hq, hframe'⟩ := decode_eq_some.mp hf
  unfold Machine.walk
  rw [hdir, htab, hoff]
  simp only [hp, if_true, hframe, hq, hframe']

theorem ptIndex_eq (virt : Nat) : ptIndex virt = virt / 4096 % 1024 := rfl

theorem ptIndex_lt (virt : Nat) : ptIndex virt < 1024 := Nat.mod_lt _ (by decide)

section Window

variable {m : Machine} {virt f : Nat}

theorem load_pdSlot (h : m.table 1023 = some m.cr3) (hv : pdIndex virt < 1024) :
    m.load (pdSlot virt) = some (m.word m.cr3 (pdIndex virt)) := by
  rw [Machine.load, pdSlot, walk_directory h hv]
  rfl

theorem store_pdSlot (h : m.table 1023 = some m.cr3) (hv : pdIndex virt < 1024) (v : Nat) :
    m.store (pdSlot virt) v = some (m.setWord m.cr3 (pdIndex virt) v) := by
  rw [Machine.store, pdSlot, walk_directory h hv]
  rfl

theorem load_ptSlot (h : m.table 1023 = some m.cr3) (hv : pdIndex virt < 1024)
    (hf : m.table (pdIndex virt) = some f) :
    m.load (ptSlot virt) = some (m.word f (ptIndex virt)) := by
  rw [Machine.load, ptSlot, ptWindow, walk_table h hv (ptIndex_lt virt) hf]
  rfl

theorem store_ptSlot (h : m.table 1023 = some m.cr3) (hv : pdIndex virt < 1024)
    (hf : m.table (pdIndex virt) = some f) (v : Nat) :
    m.store (ptSlot virt) v = some (m.setWord f (ptIndex virt) v) := by
  rw [Machine.store, ptSlot, ptWindow, walk_table h hv (ptIndex_lt virt) hf]
  rfl

theorem clearPage_ptWindow (h : m.table 1023 = some m.cr3) (hv : pdIndex virt < 1024)
    (hf : m.table (pdIndex virt) = some f) (hdir : f ≠ m.cr3) :
    m.clearPage (ptWindow virt) = some (m.clearFrame f) := by
  unfold Machine.clearPage Machine.clearFrame
  suffices hloop : ∀ n ≤ 1024,
      (List.range n).foldlM (fun m i => m.store (ptWindow virt + 4 * i) 0) m =
        some ((List.range n).foldl (fun m i => m.setWord f i 0) m) ∧
      ((List.range n).foldl (fun m i => m.setWord f i 0) m).cr3 = m.cr3 ∧
      ∀ i, ((List.range n).foldl (fun m i => m.setWord f i 0) m).table i = m.table i from
    (hloop 1024 le_rfl).1
  intro n
  induction n with
  | zero => exact fun _ => ⟨rfl, rfl, fun _ => rfl⟩
  | succ n ih =>
      intro hn
      obtain ⟨hrun, hcr3, htable⟩ := ih (by omega)
      rw [List.range_succ, List.foldlM_append, List.foldl_append, hrun]
      simp only [Option.bind_eq_bind, Option.bind_some, List.foldlM_cons, List.foldlM_nil,
        List.foldl_cons, List.foldl_nil]
      refine ⟨?_, hcr3, ?_⟩
      · rw [Machine.store, ptWindow, walk_table (by rw [htable, hcr3]; exact h) hv (by omega)
          (by rw [htable]; exact hf)]
        rfl
      · intro i
        rw [table_setWord_of_ne _ _ (by rw [hcr3]; exact fun hc => hdir hc.1.symm), htable]

end Window

/-- `m'` is `m` after the page table `f` has appeared in slot `i`, or unchanged. -/
inductive TableStep (m m' : Machine) (i : Nat) : Prop
  | kept : m'.pmm = m.pmm → (∀ k < 1024, m'.table k = m.table k) → TableStep m m' i
  | added (f : Nat) : m.table i = none → Taken m.pmm m'.pmm f 1 →
      (∀ k < 1024, m'.table k = if k = i then some f else m.table k) → TableStep m m' i

/-- The effect of mapping `page` to `frame`. -/
structure Mapped (m m' : Machine) (page frame : Nat) : Prop where
  sound : Sound m'
  cr3 : m'.cr3 = m.cr3
  before : m.tr page = none ∨ m.tr page = some frame
  tr : ∀ q < windowPage, m'.tr q = if q = page then some frame else m.tr q
  tables : TableStep m m' (page / 1024)

/-- The effect of unmapping `page`. -/
structure Unmapped (m m' : Machine) (page : Nat) : Prop where
  sound : Sound m'
  cr3 : m'.cr3 = m.cr3
  tr : ∀ q < windowPage, m'.tr q = if q = page then none else m.tr q
  pmm : m'.pmm = m.pmm
  tables : ∀ k < 1024, m'.table k = m.table k

theorem div_page {page : Nat} (h : page < windowPage) : page / 1024 < 1023 := by
  unfold windowPage at h
  omega

theorem Sound.distinct {m : Machine} (h : Sound m) : Distinct m :=
  ⟨h.enabled, h.tables.selfMap, h.tables.apart, h.tables.notDirectory⟩

/-- Writing one entry of the page table of `page` leaves the directory and the other pages
alone. -/
theorem Distinct.setEntry {m : Machine} (h : Distinct m) {page f : Nat} (hpage : page < windowPage)
    (hf : m.table (page / 1024) = some f) (v : Nat) :
    (∀ k, (m.setWord f (page % 1024) v).word m.cr3 k = m.word m.cr3 k) ∧
      ∀ q < windowPage, q ≠ page → (m.setWord f (page % 1024) v).tr q = m.tr q := by
  have hi := div_page hpage
  have hdir : m.cr3 ≠ f := by
    rintro rfl
    exact h.notDirectory _ hi hf
  refine ⟨fun k => by rw [word_setWord, if_neg fun hc => hdir hc.1], ?_⟩
  intro q hq hne
  unfold Machine.tr
  rw [table_setWord_of_ne m v fun hc => hdir hc.1]
  cases hg : m.table (q / 1024) with
  | none => rfl
  | some g =>
      refine slot_setWord_of_ne m v ?_
      -- the same slot of the same table is the same page
      rintro ⟨rfl, hj⟩
      have hdiv := h.apart _ (div_page hq) _ hi _ hg hf
      omega

theorem Sound.setEntry {m : Machine} (h : Sound m) {page f : Nat} (hpage : page < windowPage)
    (hf : m.table (page / 1024) = some f) (v : Nat) :
    Sound (m.setWord f (page % 1024) v) ∧
      (∀ q < windowPage, q ≠ page → (m.setWord f (page % 1024) v).tr q = m.tr q) ∧
      ∀ k, (m.setWord f (page % 1024) v).table k = m.table k := by
  obtain ⟨hword, htr⟩ := h.distinct.setEntry hpage hf v
  have htable : ∀ k, (m.setWord f (page % 1024) v).table k = m.table k := fun k => congrArg decode (hword k)
  refine ⟨⟨h.enabled, h.pmm, ⟨?_, ?_, ?_, ?_⟩, h.directory⟩, htr, htable⟩
  · rw [htable]
    exact h.tables.selfMap
  · intro k hk g hg
    rw [htable] at hg
    exact h.tables.marked k hk g hg
  · intro k hk l hl g hg hg'
    rw [htable] at hg hg'
    exact h.tables.apart k hk l hl g hg hg'
  · intro k hk
    rw [htable]
    exact h.tables.notDirectory k hk

theorem tr_of_table {m : Machine} {page f : Nat} (hf : m.table (page / 1024) = some f) :
    m.tr page = m.slot f (page % 1024) := by
  rw [Machine.tr, hf]
  rfl

theorem tr_of_no_table {m : Machine} {page : Nat} (hf : m.table (page / 1024) = none) :
    m.tr page = none := by
  rw [Machine.tr, hf]
  rfl

theorem pdIndex_eq (virt : Nat) : pdIndex virt = virt / 4096 / 1024 := by
  unfold pdIndex
  omega

theorem page_lt_window {virt : Nat} (h : pdIndex virt < 1023) : virt / 4096 < windowPage := by
  unfold pdIndex at h
  unfold windowPage
  omega

theorem Sound.tr_setDirectory {m : Machine} (h : Sound m) {page i : Nat} (hpage : page < windowPage)
    (hne : page / 1024 ≠ i) (v : Nat) : (m.setWord m.cr3 i v).tr page = m.tr page := by
  cases ht : m.table (page / 1024) with
  | none => rw [tr_of_no_table ht, tr_of_no_table (by rw [table_setDirectory, if_neg hne, ht])]
  | some t =>
      have hdir : t ≠ m.cr3 := by
        rintro rfl
        exact h.tables.notDirectory _ (div_page hpage) ht
      rw [tr_of_table ht, tr_of_table (by rw [table_setDirectory, if_neg hne, ht])]
      exact slot_setWord_of_ne m v fun hc => hdir hc.1

/-- The invariant when one slot of the directory changes. A new page table has to be in use,
and is neither another table nor the directory. -/
theorem Sound.setTable {m m' : Machine} (h : Sound m) {i : Nat} {entry : Option Nat} (hi : i < 1023)
    (hone : ∀ k, m'.table k = if k = i then entry else m.table k) (hcr3 : m'.cr3 = m.cr3)
    (hon : m'.pagingEnabled = m.pagingEnabled) (hpmm : WellFormed m'.pmm)
    (hkept : ∀ f, bitmapTestBit m.pmm f = true → bitmapTestBit m'.pmm f = true)
    (hnew : ∀ b, entry = some b →
      bitmapTestBit m'.pmm b = true ∧ (∀ k < 1023, m.table k ≠ some b) ∧ b ≠ m.cr3) : Sound m' := by
  refine ⟨hon.trans h.enabled, hpmm, ⟨?_, ?_, ?_, ?_⟩, ?_⟩
  · rw [hone, if_neg (by omega), hcr3]
    exact h.tables.selfMap
  · intro k hk f hf
    rw [hone] at hf
    split at hf
    · exact (hnew f hf).1
    · exact hkept f (h.tables.marked k hk f hf)
  · intro k hk l hl f hf hf'
    rw [hone] at hf hf'
    split at hf
    · split at hf'
      · rw [‹k = i›, ‹l = i›]
      · exact absurd hf' ((hnew f hf).2.1 l hl)
    · split at hf'
      · exact absurd hf ((hnew f hf').2.1 k hk)
      · exact h.tables.apart k hk l hl f hf hf'
  · intro k hk hf
    rw [hone, hcr3] at hf
    split at hf
    · exact (hnew _ hf).2.2 rfl
    · exact h.tables.notDirectory k hk hf
  · rw [hcr3]
    exact hkept _ h.directory

/-- The machine with frame `b` entered in slot `i` of the directory. -/
def Machine.enterTable (m : Machine) (q : BitmapAllocator) (i b : Nat) : Machine :=
  { m with pmm := q }.setWord m.cr3 i (makeEntry (b * 4096) (pageFlagPresent + pageFlagRw))

def Machine.installTable (m : Machine) (q : BitmapAllocator) (i b : Nat) : Machine :=
  (m.enterTable q i b).clearFrame b

theorem enterTable_table {m : Machine} {q : BitmapAllocator} {b : Nat} (hb : b < 2 ^ 20) (i k : Nat) :
    (m.enterTable q i b).table k = if k = i then some b else m.table k := by
  have hentry := @decode_makeEntry (b * 4096) (pageFlagPresent + pageFlagRw) (by omega) (by decide)
  rw [Nat.mul_div_cancel b (by decide)] at hentry
  have htable := table_setDirectory { m with pmm := q } i (makeEntry (b * 4096) (pageFlagPresent + pageFlagRw)) k
  rwa [hentry] at htable

theorem tr_clearFrame {m : Machine} {b page : Nat} (hdir : b ≠ m.cr3)
    (hb : m.table (page / 1024) ≠ some b) : (m.clearFrame b).tr page = m.tr page := by
  obtain ⟨hword, hcr3, -, -⟩ := clearFrame_spec m b
  have htable : (m.clearFrame b).table (page / 1024) = m.table (page / 1024) := by
    unfold Machine.table
    rw [hcr3, hword, if_neg fun hc => hdir hc.1.symm]
  cases ht : m.table (page / 1024) with
  | none => rw [tr_of_no_table ht, tr_of_no_table (htable.trans ht)]
  | some t =>
      rw [tr_of_table ht, tr_of_table (htable.trans ht)]
      unfold Machine.slot
      rw [hword, if_neg]
      rintro ⟨rfl, -⟩
      exact hb ht

/-- A new page table: the frame was free, so it is no other table and not the
directory, and it is cleared before anything can be translated through it. -/
theorem Sound.addTable {m : Machine} (h : Sound m) {i b : Nat} {q : BitmapAllocator}
    (hi : i < 1023) (hnone : m.table i = none) (ht : Taken m.pmm q b 1) (hq : WellFormed q) :
    (m.enterTable q i b).table 1023 = some m.cr3 ∧ (m.enterTable q i b).table i = some b ∧
      b ≠ m.cr3 ∧ Sound (m.installTable q i b) ∧ (m.installTable q i b).cr3 = m.cr3 ∧
      (m.installTable q i b).pmm = q ∧
      (∀ k < 1024, (m.installTable q i b).table k = if k = i then some b else m.table k) ∧
      ∀ p < windowPage, (m.installTable q i b).tr p = m.tr p := by
  have hfits := ht.fits
  have htotal := h.pmm.total_le
  have hbfree : Free m.pmm b := by simpa using ht.was_free 0 (by decide)
  have hbdir : b ≠ m.cr3 := by
    rintro rfl
    exact (testBit_iff.mp h.directory).2 hbfree
  have hbtable : ∀ k < 1023, m.table k ≠ some b := by
    intro k hk hkb
    exact (testBit_iff.mp (h.tables.marked k hk b hkb)).2 hbfree
  have htab₂ := @enterTable_table m q b (by omega) i
  obtain ⟨hword, hcr3', hpmm', hon⟩ := clearFrame_spec (m.enterTable q i b) b
  have hcr3 : (m.installTable q i b).cr3 = m.cr3 := hcr3'
  have hpmm : (m.installTable q i b).pmm = q := hpmm'
  have htab : ∀ k, (m.installTable q i b).table k = if k = i then some b else m.table k := by
    intro k
    rw [← htab₂ k]
    unfold Machine.table Machine.installTable
    rw [hcr3', hword, if_neg fun hc => hbdir hc.1.symm]
  have hself₂ : (m.enterTable q i b).table 1023 = some m.cr3 := by
    rw [htab₂, if_neg (by omega)]
    exact h.tables.selfMap
  refine ⟨hself₂, by rw [htab₂, if_pos rfl], hbdir, ?_, hcr3, hpmm, fun k _ => htab k, ?_⟩
  · refine h.setTable hi htab hcr3 hon (by rwa [hpmm]) ?_ ?_
    · intro f hf
      rw [hpmm]
      exact ht.testBit hf
    · rintro _ ⟨rfl⟩
      rw [hpmm]
      exact ⟨by simpa using ht.testBit_new (i := 0) (by decide), hbtable, hbdir⟩
  · intro p hp
    by_cases hpi : p / 1024 = i
    · -- the page table is new, and empty
      rw [tr_of_table (f := b) (by rw [htab, if_pos hpi]), tr_of_no_table (by rw [hpi]; exact hnone)]
      unfold Machine.slot Machine.installTable
      rw [hword, if_pos ⟨rfl, Nat.mod_lt _ (by decide)⟩]
      rfl
    · have hother : (m.enterTable q i b).table (p / 1024) ≠ some b := by
        rw [htab₂, if_neg hpi]
        exact hbtable _ (div_page hp)
      have hclear : (m.installTable q i b).tr p = (m.enterTable q i b).tr p := tr_clearFrame hbdir hother
      exact hclear.trans (h.tr_setDirectory hp hpi _)

theorem Sound.ensureTable_old {m : Machine} (h : Sound m) {virt f : Nat} (hv : pdIndex virt < 1023)
    (hf : m.table (pdIndex virt) = some f) : ensureTable m virt = some (.ok, m) := by
  have hpres := (decode_eq_some.mp hf).1
  unfold ensureTable
  rw [load_pdSlot h.tables.selfMap (by omega)]
  simp [hpres]

theorem Sound.ensureTable_out {m : Machine} (h : Sound m) {virt : Nat} (hv : pdIndex virt < 1023)
    (hnone : m.table (pdIndex virt) = none) (hout : pmmAllocPage m.pmm = (0, m.pmm)) :
    ensureTable m virt = some (.outOfMemory, m) := by
  have hpres := decode_eq_none.mp hnone
  unfold ensureTable
  rw [load_pdSlot h.tables.selfMap (by omega)]
  simp [hpres, hout]

theorem Sound.ensureTable_new {m : Machine} (h : Sound m) {virt b : Nat} {q : BitmapAllocator}
    (hv : pdIndex virt < 1023) (hnone : m.table (pdIndex virt) = none)
    (halloc : pmmAllocPage m.pmm = (b * 4096, q)) (ht : Taken m.pmm q b 1) (hq : WellFormed q) :
    ensureTable m virt = some (.ok, m.installTable q (pdIndex virt) b) := by
  have hpres := decode_eq_none.mp hnone
  have hbpos := ht.pos
  obtain ⟨hself₂, htab₂, hbdir, -⟩ := h.addTable hv hnone ht hq
  unfold ensureTable
  rw [load_pdSlot h.tables.selfMap (by omega)]
  simp only [Option.bind_eq_bind, Option.bind_some, hpres, Bool.false_eq_true, if_false, halloc,
    if_neg (by omega : ¬ b * 4096 = 0)]
  rw [store_pdSlot (m := { m with pmm := q }) h.tables.selfMap (by omega)]
  have hclear := clearPage_ptWindow (m := m.enterTable q (pdIndex virt) b) hself₂ (by omega) htab₂
    hbdir
  unfold Machine.enterTable at hclear
  simp only [Option.bind_some, hclear]
  rfl

/-- `vmm_map_page` with paging enabled: refused because another frame is there,
refused because a page table is missing and memory is out, or done. -/
theorem vmmMapPage_spec {m : Machine} (h : Sound m) {virt phys flags : Nat}
    (hv : pdIndex virt < 1023) (hp : phys < 2 ^ 32) (hflags : flags % 2 = 1) :
    ((∃ f, m.tr (virt / 4096) = some f ∧ f ≠ phys / 4096) ∧
        vmmMapPage m virt phys flags = some (.alreadyMapped, m)) ∨
      (m.table (pdIndex virt) = none ∧ (∀ b, ¬ Free m.pmm b) ∧
        vmmMapPage m virt phys flags = some (.outOfMemory, m)) ∨
      ((m.table (pdIndex virt) ≠ none ∨ ∃ b, Free m.pmm b) ∧
        ∃ m', vmmMapPage m virt phys flags = some (.ok, m') ∧
        Mapped m m' (virt / 4096) (phys / 4096)) := by
  have hpage := page_lt_window hv
  have hdiv := pdIndex_eq virt
  have hself := h.tables.selfMap
  unfold vmmMapPage
  rw [if_pos h.enabled]
  cases htable : m.table (pdIndex virt) with
  | some f =>
      rw [h.ensureTable_old hv htable]
      simp only [Option.bind_eq_bind, Option.bind_some, ne_eq, not_true_eq_false, if_false,
        load_ptSlot hself (by omega : pdIndex virt < 1024) htable]
      have htab : m.table (virt / 4096 / 1024) = some f := by rw [← hdiv]; exact htable
      have htr := tr_of_table htab
      by_cases hother : present (m.word f (ptIndex virt)) = true ∧
          entryFrame (m.word f (ptIndex virt)) ≠ phys / 4096
      · left
        refine ⟨⟨_, htr.trans (decode_eq_some.mpr ⟨hother.1, rfl⟩), hother.2⟩, ?_⟩
        rw [if_pos hother]
      · right; right
        refine ⟨Or.inl (by simp), m.setWord f (ptIndex virt) (makeEntry phys flags), ?_, ?_⟩
        · rw [if_neg hother, store_ptSlot hself (by omega) htable]
          rfl
        · obtain ⟨hsound, hrest, htabs⟩ := h.setEntry hpage htab (makeEntry phys flags)
          refine ⟨hsound, rfl, ?_, ?_, .kept rfl fun k _ => htabs k⟩
          · rw [htr]
            cases hpte : m.slot f (virt / 4096 % 1024) with
            | none => exact Or.inl rfl
            | some g =>
                obtain ⟨hpres', rfl⟩ := decode_eq_some.mp hpte
                right
                by_contra hne
                exact hother ⟨hpres', fun heq => hne (congrArg some heq)⟩
          · intro q hq
            split
            · rename_i heq
              subst heq
              rw [ptIndex_eq, tr_of_table (f := f) (by rw [htabs]; exact htab)]
              exact slot_setWord_self m hp hflags
            · exact hrest q hq ‹_›
  | none =>
      right
      rcases pmmAllocPage_spec h.pmm with ⟨hout, hnofree⟩ | ⟨b, q, halloc, ht, hq⟩
      · left
        refine ⟨rfl, hnofree, ?_⟩
        rw [h.ensureTable_out hv htable hout]
        rfl
      · right
        obtain ⟨-, -, -, hsound, hcr3, hpmm, htab, htrEq⟩ :=
          h.addTable hv htable ht hq
        refine ⟨Or.inr ⟨b, by simpa using ht.was_free 0 (by decide)⟩, ?_⟩
        rw [h.ensureTable_new hv htable halloc ht hq]
        simp only [Option.bind_eq_bind, Option.bind_some, ne_eq, not_true_eq_false, if_false]
        have htab' := htab (pdIndex virt) (by omega)
        rw [if_pos rfl] at htab'
        rw [load_ptSlot hsound.tables.selfMap (by omega) htab']
        simp only [Option.bind_some]
        have htabPage : (m.installTable q (pdIndex virt) b).table (virt / 4096 / 1024) = some b := by
          rw [← hdiv]
          exact htab'
        have hold : m.tr (virt / 4096) = none := tr_of_no_table (by rw [← hdiv]; exact htable)
        -- the fresh table is empty, so nothing is mapped there yet
        have hnot : present ((m.installTable q (pdIndex virt) b).word b (ptIndex virt)) = false := by
          have hnew := htrEq _ hpage
          rw [hold, tr_of_table htabPage] at hnew
          exact decode_eq_none.mp hnew
        rw [if_neg (by rw [hnot]; simp), store_ptSlot hsound.tables.selfMap (by omega) htab']
        refine ⟨_, rfl, ?_⟩
        obtain ⟨hsound', hrest, htabs⟩ := hsound.setEntry hpage htabPage (makeEntry phys flags)
        refine ⟨hsound', (setWord_cr3 _ _ _ _).trans hcr3, Or.inl hold, ?_, ?_⟩
        · intro p hpw
          split
          · rename_i heq
            subst heq
            rw [ptIndex_eq, tr_of_table (f := b) (by rw [htabs]; exact htabPage)]
            exact slot_setWord_self _ hp hflags
          · exact (hrest p hpw ‹_›).trans (htrEq p hpw)
        · refine .added b (by rw [← hdiv]; exact htable) (by rw [setWord_pmm, hpmm]; exact ht) ?_
          intro k hk
          rw [ptIndex_eq, htabs, htab k hk, hdiv]

/-- `vmm_unmap_page` clears the entry of a mapped page. -/
theorem Distinct.vmmUnmapPage_spec {m : Machine} (h : Distinct m) {virt : Nat} (hv : pdIndex virt < 1023) :
    (m.tr (virt / 4096) = none ∧ vmmUnmapPage m virt = some (.invalidParam, m)) ∨
      (m.tr (virt / 4096) ≠ none ∧ ∃ f, m.table (virt / 4096 / 1024) = some f ∧
        vmmUnmapPage m virt = some (.ok, m.setWord f (virt / 4096 % 1024) 0) ∧
        (m.setWord f (virt / 4096 % 1024) 0).tr (virt / 4096) = none) := by
  have hpage := page_lt_window hv
  have hdiv := pdIndex_eq virt
  have hself := h.selfMap
  unfold vmmUnmapPage
  rw [if_pos h.enabled, load_pdSlot hself (by omega)]
  cases htable : m.table (pdIndex virt) with
  | none =>
      have hpres := decode_eq_none.mp htable
      left
      exact ⟨tr_of_no_table (by rw [← hdiv]; exact htable), by simp [hpres]⟩
  | some f =>
      have hpres := (decode_eq_some.mp htable).1
      have htab : m.table (virt / 4096 / 1024) = some f := by rw [← hdiv]; exact htable
      have htr := tr_of_table htab
      simp only [Option.bind_eq_bind, Option.bind_some, hpres, if_true,
        load_ptSlot hself (by omega : pdIndex virt < 1024) htable]
      cases hpte : present (m.word f (ptIndex virt)) with
      | false =>
          left
          exact ⟨htr.trans (decode_eq_none.mpr hpte), by simp⟩
      | true =>
          right
          refine ⟨?_, f, htab, ?_, ?_⟩
          · rw [htr, show m.slot f (virt / 4096 % 1024) = some _ from decode_eq_some.mpr ⟨hpte, rfl⟩]
            exact Option.some_ne_none _
          · rw [if_pos rfl, store_ptSlot hself (by omega) htable]
            rfl
          · have hword := (h.setEntry hpage htab 0).1
            rw [tr_of_table (f := f) ((congrArg decode (hword _)).trans htab), Machine.slot, word_setWord,
              if_pos ⟨rfl, rfl⟩]
            rfl

/-- `vmm_unmap_page` with paging enabled succeeds exactly on mapped pages. -/
theorem vmmUnmapPage_spec {m : Machine} (h : Sound m) {virt : Nat} (hv : pdIndex virt < 1023) :
    (m.tr (virt / 4096) = none ∧ vmmUnmapPage m virt = some (.invalidParam, m)) ∨
      (m.tr (virt / 4096) ≠ none ∧ ∃ m', vmmUnmapPage m virt = some (.ok, m') ∧
        Unmapped m m' (virt / 4096)) := by
  rcases h.distinct.vmmUnmapPage_spec hv with hnone | ⟨hsome, f, htable, hrun, hgone⟩
  · exact Or.inl hnone
  · obtain ⟨hsound, hrest, htabs⟩ := h.setEntry (page_lt_window hv) htable 0
    refine Or.inr ⟨hsome, _, hrun, hsound, rfl, ?_, rfl, fun k _ => htabs k⟩
    intro q hq
    split_ifs with heq
    · rw [heq, hgone]
    · exact hrest q hq heq

/-- `vmm_get_physical_addr` reads the translation; an unmapped address gives 0. -/
theorem vmmGetPhysicalAddr_spec {m : Machine} (h : Sound m) {virt : Nat} (hv : pdIndex virt < 1023) :
    vmmGetPhysicalAddr m virt =
      some (match m.tr (virt / 4096) with
        | none => 0
        | some f => f * 4096 + virt % 4096) := by
  have hdiv := pdIndex_eq virt
  have hself := h.tables.selfMap
  unfold vmmGetPhysicalAddr
  rw [if_pos h.enabled, load_pdSlot hself (by omega)]
  cases htable : m.table (pdIndex virt) with
  | none =>
      have hpres := decode_eq_none.mp htable
      rw [tr_of_no_table (by rw [← hdiv]; exact htable)]
      simp [hpres]
  | some f =>
      have hpres := (decode_eq_some.mp htable).1
      rw [tr_of_table (f := f) (by rw [← hdiv]; exact htable)]
      simp only [Option.bind_eq_bind, Option.bind_some, hpres, if_true,
        load_ptSlot hself (by omega : pdIndex virt < 1024) htable]
      rw [ptIndex_eq]
      cases hpte : m.slot f (virt / 4096 % 1024) with
      | none => simp [decode_eq_none.mp hpte]
      | some g =>
          obtain ⟨hp, rfl⟩ := decode_eq_some.mp hpte
          simp [hp]

end Frostix.Vmm
