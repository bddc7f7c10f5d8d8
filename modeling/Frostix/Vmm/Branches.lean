import Frostix.Vmm.Runs

/-!
The two implementations of each mapping function. With paging enabled the tables are
reached through the recursive slot of the directory, which is itself part of the tables;
before that they are reached by their physical addresses. From the same tables, memory
and page allocator both give the same status and leave the same machine. -/
namespace Frostix.Vmm
open Machine32 Pmm

/-- The same memory and page allocator, seen with paging enabled or disabled. -/
def Machine.withPaging (m : Machine) (on : Bool) : Machine := { m with pagingEnabled := on }

/-- The tables as the claim has them: the kernel's directory is in use and its last entry
maps it. -/
structure SelfMapped (m : Machine) : Prop where
  inUse : m.kernelPageDirectory = m.cr3
  selfMap : m.table 1023 = some m.cr3

def Agree (on off : Option (KernelStatus × Machine)) : Prop :=
  ∃ (status : KernelStatus) (m : Machine),
    on = some (status, m.withPaging true) ∧ off = some (status, m.withPaging false)

/-- If the page table of `virt` is missing, the page allocator does not give out the
frame of the directory for it. -/
def DirectoryKept (m : Machine) (virt : Nat) : Prop :=
  m.table (pdIndex virt) = none → (pmmAllocPage m.pmm).1 / 4096 ≠ m.cr3

@[simp] theorem withPaging_word (m : Machine) (on : Bool) (f i : Nat) :
    (m.withPaging on).word f i = m.word f i := rfl

@[simp] theorem withPaging_table (m : Machine) (on : Bool) (i : Nat) :
    (m.withPaging on).table i = m.table i := rfl

theorem withPaging_setWord (m : Machine) (on : Bool) (f i v : Nat) :
    (m.withPaging on).setWord f i v = (m.setWord f i v).withPaging on := rfl

theorem withPaging_clearFrame (m : Machine) (on : Bool) (f : Nat) :
    (m.withPaging on).clearFrame f = (m.clearFrame f).withPaging on := by
  unfold Machine.clearFrame
  induction List.range 1024 generalizing m with
  | nil => rfl
  | cons i rest ih =>
      rw [List.foldl_cons, List.foldl_cons, withPaging_setWord]
      exact ih _

theorem pmmAllocPage_lt (p : BitmapAllocator) : (pmmAllocPage p).1 < 2 ^ 32 := by
  unfold pmmAllocPage
  dsimp only
  split_ifs
  · exact Nat.two_pow_pos 32
  · exact Nat.two_pow_pos 32
  · exact wrap_lt _

theorem clearFrame_kernelPageDirectory (m : Machine) (f : Nat) :
    (m.clearFrame f).kernelPageDirectory = m.kernelPageDirectory := by
  unfold Machine.clearFrame
  induction List.range 1024 generalizing m with
  | nil => rfl
  | cons i rest ih =>
      rw [List.foldl_cons]
      exact ih _

section
variable {m : Machine} {virt : Nat}

/-- The machine with a new table allocated and entered in the directory. -/
def Machine.withEntry (m : Machine) (virt : Nat) : Machine :=
  { m with pmm := (pmmAllocPage m.pmm).2 }.setWord m.cr3 (pdIndex virt)
    (makeEntry (pmmAllocPage m.pmm).1 (pageFlagPresent + pageFlagRw))

theorem withEntry_table (m : Machine) (virt i : Nat) :
    (m.withEntry virt).table i =
      if i = pdIndex virt then some ((pmmAllocPage m.pmm).1 / 4096) else m.table i := by
  have hentry := @decode_makeEntry _ (pageFlagPresent + pageFlagRw) (pmmAllocPage_lt m.pmm) (by decide)
  rw [← hentry]
  exact table_setDirectory { m with pmm := (pmmAllocPage m.pmm).2 } (pdIndex virt) _ i

def Machine.newTable (m : Machine) (virt : Nat) : Machine :=
  (m.withEntry virt).clearFrame ((pmmAllocPage m.pmm).1 / 4096)

theorem newTable_spec (h : SelfMapped m) (hv : pdIndex virt < 1023)
    (hkept : (pmmAllocPage m.pmm).1 / 4096 ≠ m.cr3) :
    SelfMapped (m.newTable virt) ∧ (m.newTable virt).cr3 = m.cr3 ∧
      (m.newTable virt).table (pdIndex virt) = some ((pmmAllocPage m.pmm).1 / 4096) ∧
      (m.newTable virt).word ((pmmAllocPage m.pmm).1 / 4096) (ptIndex virt) = 0 := by
  obtain ⟨hword, hcr3, -, -⟩ := clearFrame_spec (m.withEntry virt) ((pmmAllocPage m.pmm).1 / 4096)
  have hcr3' : (m.newTable virt).cr3 = m.cr3 := hcr3
  have htable : ∀ i, (m.newTable virt).table i = (m.withEntry virt).table i := by
    intro i
    rw [Machine.table, hcr3', Machine.newTable, hword, if_neg fun hc => hkept hc.1.symm]
    rfl
  refine ⟨⟨?_, ?_⟩, hcr3', ?_, ?_⟩
  · rw [hcr3', ← h.inUse]
    exact clearFrame_kernelPageDirectory _ _
  · rw [htable, withEntry_table, if_neg (by omega), hcr3', h.selfMap]
  · rw [htable, withEntry_table, if_pos rfl]
  · rw [Machine.newTable, hword, if_pos ⟨rfl, ptIndex_lt virt⟩]

theorem ensureTableDirect_present (h : SelfMapped m) {f : Nat} (hf : m.table (pdIndex virt) = some f) :
    ensureTableDirect m virt = (.ok, m) := by
  have hpde := (decode_eq_some.mp hf).1
  rw [← h.inUse] at hpde
  exact if_pos hpde

theorem ensureTableDirect_missing (h : SelfMapped m) (hnone : m.table (pdIndex virt) = none) :
    ensureTableDirect m virt =
      if (pmmAllocPage m.pmm).1 = 0 then (.outOfMemory, { m with pmm := (pmmAllocPage m.pmm).2 })
      else (.ok, m.newTable virt) := by
  have hpde : present (m.word m.kernelPageDirectory (pdIndex virt)) = false := by
    rw [h.inUse]
    exact decode_eq_none.mp hnone
  rw [ensureTableDirect, if_neg (by simp [hpde]), Machine.newTable, Machine.withEntry]
  rcases pmmAllocPage m.pmm with ⟨a, q⟩
  simp only [h.inUse]

/-- The window gives the same as the physical addresses. Clearing the new table through
the window is clearing its frame: the entry that shows it there has just been written, and
it does not show the directory. -/
theorem ensureTable_eq_direct (h : SelfMapped m) (hv : pdIndex virt < 1023) (hkept : DirectoryKept m virt) :
    ensureTable m virt = some (ensureTableDirect m virt) := by
  rw [ensureTable, load_pdSlot h.selfMap (by omega)]
  simp only [Option.bind_eq_bind, Option.bind_some]
  cases htable : m.table (pdIndex virt) with
  | some f => rw [if_pos (decode_eq_some.mp htable).1, ensureTableDirect_present h htable]
  | none =>
      have hpde : present (m.word m.cr3 (pdIndex virt)) = false := decode_eq_none.mp htable
      rw [if_neg (by simp [hpde]), ensureTableDirect_missing h htable]
      split_ifs with hzero
      · rfl
      · have hself : (m.withEntry virt).table 1023 = some (m.withEntry virt).cr3 := by
          rw [withEntry_table, if_neg (by omega)]
          exact h.selfMap
        have hentered : (m.withEntry virt).table (pdIndex virt) =
            some ((pmmAllocPage m.pmm).1 / 4096) := by rw [withEntry_table, if_pos rfl]
        have hstore : Machine.store { m with pmm := (pmmAllocPage m.pmm).2 } (pdSlot virt)
            (makeEntry (pmmAllocPage m.pmm).1 (pageFlagPresent + pageFlagRw)) = some (m.withEntry virt) :=
          @store_pdSlot { m with pmm := (pmmAllocPage m.pmm).2 } virt h.selfMap (by omega) _
        have hclear := @clearPage_ptWindow (m.withEntry virt) virt _ hself (by omega) hentered
          (hkept htable)
        rw [hstore, Option.bind_some, hclear, Machine.newTable, Option.bind_some]

theorem ensureTableDirect_withPaging (m : Machine) (on : Bool) (virt : Nat) :
    ensureTableDirect (m.withPaging on) virt =
      ((ensureTableDirect m virt).1, (ensureTableDirect m virt).2.withPaging on) := by
  have hsame : (m.withPaging on).kernelPageDirectory = m.kernelPageDirectory := rfl
  have hpmm : (m.withPaging on).pmm = m.pmm := rfl
  rw [ensureTableDirect, ensureTableDirect]
  simp only [withPaging_word, hsame, hpmm]
  rcases pmmAllocPage m.pmm with ⟨a, q⟩
  dsimp only
  split_ifs
  · rfl
  · rfl
  · dsimp only
    rw [← withPaging_clearFrame]
    rfl

theorem table_of_direct (h : SelfMapped m) (hv : pdIndex virt < 1023) (hkept : DirectoryKept m virt)
    (hok : (ensureTableDirect m virt).1 = .ok) :
    ∃ f, SelfMapped (ensureTableDirect m virt).2 ∧
      (ensureTableDirect m virt).2.table (pdIndex virt) = some f ∧
      ((ensureTableDirect m virt).2.slot f (ptIndex virt) = none ∨
        (ensureTableDirect m virt).2.slot f (ptIndex virt) = m.tr (virt / 4096)) := by
  cases htable : m.table (pdIndex virt) with
  | some f =>
      rw [ensureTableDirect_present h htable]
      refine ⟨f, h, htable, Or.inr ?_⟩
      rw [tr_of_table (f := f) (by rw [← pdIndex_eq]; exact htable), ptIndex_eq]
  | none =>
      rw [ensureTableDirect_missing h htable] at hok ⊢
      split_ifs at hok ⊢ with hzero
      · obtain ⟨hself, -, hentered, hempty⟩ := newTable_spec h hv (hkept htable)
        dsimp only
        refine ⟨_, hself, hentered, Or.inl ?_⟩
        rw [Machine.slot, hempty]
        rfl

/-- `vmm_map_page`, where the page is not present with another frame. -/
theorem map_branches_agree (h : SelfMapped m) (hv : pdIndex virt < 1023) (hkept : DirectoryKept m virt)
    {phys flags : Nat} (htarget : ∀ f, m.tr (virt / 4096) = some f → f = phys / 4096) :
    Agree (vmmMapPage (m.withPaging true) virt phys flags)
      (vmmMapPage (m.withPaging false) virt phys flags) := by
  have hon : vmmMapPage (m.withPaging true) virt phys flags =
      (ensureTable (m.withPaging true) virt).bind fun sm =>
        if sm.1 ≠ .ok then some sm
        else (sm.2.load (ptSlot virt)).bind fun pte =>
          if present pte ∧ entryFrame pte ≠ phys / 4096 then some (.alreadyMapped, sm.2)
          else (sm.2.store (ptSlot virt) (makeEntry phys flags)).bind fun m => some (.ok, m) := rfl
  have hoff : vmmMapPage (m.withPaging false) virt phys flags =
      if (ensureTableDirect (m.withPaging false) virt).1 ≠ .ok then
        some (ensureTableDirect (m.withPaging false) virt)
      else some (.ok, (ensureTableDirect (m.withPaging false) virt).2.setWord
        (entryFrame ((ensureTableDirect (m.withPaging false) virt).2.word
          (ensureTableDirect (m.withPaging false) virt).2.kernelPageDirectory (pdIndex virt)))
        (ptIndex virt) (makeEntry phys flags)) := rfl
  have hself : SelfMapped (m.withPaging true) := ⟨h.inUse, h.selfMap⟩
  rw [hon, hoff, ensureTable_eq_direct hself hv hkept, ensureTableDirect_withPaging,
    ensureTableDirect_withPaging, Option.bind_some]
  dsimp only
  by_cases hok : (ensureTableDirect m virt).1 = .ok
  · obtain ⟨f, hself', hf, hslot⟩ := table_of_direct h hv hkept hok
    generalize (ensureTableDirect m virt).2 = m' at hself' hf hslot ⊢
    rw [hok, if_neg (by simp), if_neg (by simp)]
    have hframe : entryFrame (m'.word m'.kernelPageDirectory (pdIndex virt)) = f := by
      rw [hself'.inUse]
      exact (decode_eq_some.mp hf).2
    have hload := @load_ptSlot (m'.withPaging true) virt f hself'.selfMap (by omega) hf
    have hstore := @store_ptSlot (m'.withPaging true) virt f hself'.selfMap (by omega) hf
      (makeEntry phys flags)
    have hfree : ¬ (present (m'.word f (ptIndex virt)) = true ∧
        entryFrame (m'.word f (ptIndex virt)) ≠ phys / 4096) := by
      rintro ⟨hpres, hother⟩
      have hsome : m'.slot f (ptIndex virt) = some (entryFrame (m'.word f (ptIndex virt))) :=
        decode_eq_some.mpr ⟨hpres, rfl⟩
      rcases hslot with hnone | hsame
      · rw [hsome] at hnone
        cases hnone
      · exact hother (htarget _ (hsame.symm.trans hsome))
    rw [hload, hstore]
    refine ⟨.ok, m'.setWord f (ptIndex virt) (makeEntry phys flags), ?_, ?_⟩
    · simp only [Option.bind_some, withPaging_word, if_neg hfree]
      rfl
    · simp only [withPaging_word]
      rw [show (m'.withPaging false).kernelPageDirectory = m'.kernelPageDirectory from rfl, hframe]
      rfl
  · rw [if_pos hok, if_pos hok]
    exact ⟨_, _, rfl, rfl⟩

theorem entries_agree (h : SelfMapped m) (hv : pdIndex virt < 1023) :
    (m.withPaging true).load (pdSlot virt) = some (m.word m.cr3 (pdIndex virt)) ∧
      (m.withPaging false).word (m.withPaging false).kernelPageDirectory (pdIndex virt) =
        m.word m.cr3 (pdIndex virt) ∧
      (present (m.word m.cr3 (pdIndex virt)) = true →
        (m.withPaging true).load (ptSlot virt) =
            some (m.word (entryFrame (m.word m.cr3 (pdIndex virt))) (ptIndex virt)) ∧
          ∀ v, (m.withPaging true).store (ptSlot virt) v = some ((m.setWord
            (entryFrame (m.word m.cr3 (pdIndex virt))) (ptIndex virt) v).withPaging true)) := by
  refine ⟨@load_pdSlot (m.withPaging true) virt h.selfMap (by omega), by rw [← h.inUse]; rfl, ?_⟩
  intro hpde
  have hf : m.table (pdIndex virt) = some (entryFrame (m.word m.cr3 (pdIndex virt))) :=
    decode_eq_some.mpr ⟨hpde, rfl⟩
  exact ⟨@load_ptSlot (m.withPaging true) virt _ h.selfMap (by omega) hf,
    fun v => @store_ptSlot (m.withPaging true) virt _ h.selfMap (by omega) hf v⟩

theorem unmap_branches_agree (h : SelfMapped m) (hv : pdIndex virt < 1023) :
    Agree (vmmUnmapPage (m.withPaging true) virt) (vmmUnmapPage (m.withPaging false) virt) := by
  obtain ⟨hload, hword, htable⟩ := entries_agree h hv
  rw [vmmUnmapPage, vmmUnmapPage, if_pos (show (m.withPaging true).pagingEnabled = true from rfl),
    if_neg (show ¬ (m.withPaging false).pagingEnabled = true from Bool.false_ne_true), hload]
  simp only [Option.bind_eq_bind, Option.bind_some, hword]
  by_cases hpde : present (m.word m.cr3 (pdIndex virt)) = true
  · obtain ⟨hload', hstore⟩ := htable hpde
    rw [if_pos hpde, if_pos hpde, hload', hstore]
    simp only [Option.bind_some, withPaging_word]
    by_cases hpte : present (m.word (entryFrame (m.word m.cr3 (pdIndex virt))) (ptIndex virt)) = true
    · exact ⟨_, _, if_pos hpte, if_pos hpte⟩
    · exact ⟨_, _, if_neg hpte, if_neg hpte⟩
  · rw [if_neg hpde, if_neg hpde]
    exact ⟨_, _, rfl, rfl⟩

theorem lookup_branches_agree (h : SelfMapped m) (hv : pdIndex virt < 1023) :
    ∃ a, vmmGetPhysicalAddr (m.withPaging true) virt = some a ∧
      vmmGetPhysicalAddr (m.withPaging false) virt = some a := by
  obtain ⟨hload, hword, htable⟩ := entries_agree h hv
  rw [vmmGetPhysicalAddr, vmmGetPhysicalAddr,
    if_pos (show (m.withPaging true).pagingEnabled = true from rfl),
    if_neg (show ¬ (m.withPaging false).pagingEnabled = true from Bool.false_ne_true), hload]
  simp only [Option.bind_eq_bind, Option.bind_some, hword]
  by_cases hpde : present (m.word m.cr3 (pdIndex virt)) = true
  · rw [if_pos hpde, if_pos hpde, (htable hpde).1]
    simp only [Option.bind_some, withPaging_word]
    by_cases hpte : present (m.word (entryFrame (m.word m.cr3 (pdIndex virt))) (ptIndex virt)) = true
    · exact ⟨_, if_pos hpte, if_pos hpte⟩
    · exact ⟨_, if_neg hpte, if_neg hpte⟩
  · rw [if_neg hpde, if_neg hpde]
    exact ⟨_, rfl, rfl⟩

end

/-- For every page directory that maps itself and every address below the recursive
window, provided the page allocator does not give out the directory's own frame: the two
branches of the three functions give the same status, physical memory and page allocator,
and no access through the window faults. For `vmm_map_page` the page must not be present
with another frame. -/
theorem branches_agree {m : Machine} (h : SelfMapped m) {virt phys flags : Nat}
    (hv : pdIndex virt < 1023) (hkept : DirectoryKept m virt) :
    ((∀ f, m.tr (virt / 4096) = some f → f = phys / 4096) →
      Agree (vmmMapPage (m.withPaging true) virt phys flags)
        (vmmMapPage (m.withPaging false) virt phys flags)) ∧
    Agree (vmmUnmapPage (m.withPaging true) virt) (vmmUnmapPage (m.withPaging false) virt) ∧
    ∃ a, vmmGetPhysicalAddr (m.withPaging true) virt = some a ∧
      vmmGetPhysicalAddr (m.withPaging false) virt = some a :=
  ⟨map_branches_agree h hv hkept, unmap_branches_agree h hv, lookup_branches_agree h hv⟩

theorem smallMachine_selfMapped (bits : BitVec 8) (freePages : Nat) :
    SelfMapped (smallMachine bits freePages) := ⟨rfl, (smallMachine_tablesOk bits freePages).selfMap⟩

theorem branches_agree_small :
    (pmmAllocPage (smallMachine 0x21#8 6).pmm).1 = 0x1000 ∧
      Agree (vmmMapPage ((smallMachine 0x21#8 6).withPaging true) 0x1000 0x3000 3)
        (vmmMapPage ((smallMachine 0x21#8 6).withPaging false) 0x1000 0x3000 3) := by
  refine ⟨by decide, ?_⟩
  refine (branches_agree (smallMachine_selfMapped _ _) (by decide) fun _ => by decide).1 ?_
  intro f hf
  have hnone : (smallMachine 0x21#8 6).tr (0x1000 / 4096) = none := by decide
  rw [hnone] at hf
  cases hf

/-- Where the page allocator holds the directory's frame for free, the branches differ:
with paging enabled the new table is the directory itself, and clearing it through the
window faults. -/
theorem branches_differ_on_directory :
    ¬ ∀ (m : Machine) (virt phys flags : Nat), SelfMapped m → TablesOk m → pdIndex virt < 1023 →
      (∀ f, m.tr (virt / 4096) = some f → f = phys / 4096) →
      Agree (vmmMapPage (m.withPaging true) virt phys flags)
        (vmmMapPage (m.withPaging false) virt phys flags) := by
  intro h
  have hnone : (smallMachine 0xDF#8 1).tr (0x1000 / 4096) = none := by decide
  obtain ⟨status, m', hon, -⟩ := h (smallMachine 0xDF#8 1) 0x1000 0x3000 3
    (smallMachine_selfMapped _ _) (smallMachine_tablesOk _ _) (by decide) (by
      intro f hf
      rw [hnone] at hf
      cases hf)
  have hfault : vmmMapPage ((smallMachine 0xDF#8 1).withPaging true) 0x1000 0x3000 3 = none :=
    Option.isNone_iff_eq_none.mp (by decide +kernel)
  rw [hfault] at hon
  cases hon

end Frostix.Vmm
