import Frostix.Vmm.Ranges

/-!
`vmm_is_range_mapped` takes the physical address 0 for "not mapped", and it computes the
end of the range with 32 bits. So a page that is mapped to frame 0 counts as missing, and
of a range that reaches the last page of the address space at most one page is looked at. -/
namespace Frostix.Vmm
open Machine32 Pmm

def Machine.lookupDirectory (m : Machine) : Nat := if m.pagingEnabled then m.cr3 else m.kernelPageDirectory

def Machine.shown (m : Machine) (page : Nat) : Option Nat :=
  (decode (m.word m.lookupDirectory (page / 1024))).bind fun f => m.slot f (page % 1024)

/-- With paging enabled the tables are only there through the self-map. -/
def Readable (m : Machine) : Prop := m.pagingEnabled = true → m.table 1023 = some m.cr3

def InRange (virtStart size page : Nat) : Prop :=
  page < 2 ^ 20 ∧ page * 4096 < virtStart + size ∧ virtStart < (page + 1) * 4096

def AllPresent (m : Machine) (virtStart size : Nat) : Prop :=
  ∀ page, InRange virtStart size page → m.shown page ≠ none

/-- When the answer is right. A range that ends below the last page is read wrong if it is
mapped with some page in frame 0. Of a longer one nothing is read, or the first page
alone where the wrapped end is in the same page behind the start. -/
def ReadRight (m : Machine) (virtStart size : Nat) : Prop :=
  if virtStart + size ≤ 0xFFFFF000 then
    AllPresent m virtStart size → ∀ page, InRange virtStart size page → m.shown page ≠ some 0
  else if alignDown virtStart 4096 < alignUp (wrap (virtStart + size)) 4096 then
    AllPresent m virtStart size ∧ m.shown (virtStart / 4096) ≠ some 0 ∨
      ¬ AllPresent m virtStart size ∧ (m.shown (virtStart / 4096) = none ∨ m.shown (virtStart / 4096) = some 0)
  else AllPresent m virtStart size

section Lookup
variable {m : Machine}

theorem shown_of_enabled (hon : m.pagingEnabled = true) (page : Nat) : m.shown page = m.tr page := by
  rw [Machine.shown, Machine.lookupDirectory, if_pos hon]
  rfl

theorem shown_of_disabled (hoff : ¬ m.pagingEnabled = true) (page : Nat) :
    m.shown page =
      (decode (m.word m.kernelPageDirectory (page / 1024))).bind fun f => m.slot f (page % 1024) := by
  rw [Machine.shown, Machine.lookupDirectory, if_neg hoff]

/-- The lookup of any address, with paging enabled or not. -/
theorem vmmGetPhysicalAddr_shown (h : Readable m) {virt : Nat} (hv : virt < 2 ^ 32) :
    vmmGetPhysicalAddr m virt =
      some (match m.shown (virt / 4096) with
        | none => 0
        | some f => f * 4096 + virt % 4096) := by
  have hdiv := pdIndex_eq virt
  have hlt : pdIndex virt < 1024 := by
    unfold pdIndex
    omega
  rw [vmmGetPhysicalAddr]
  by_cases hon : m.pagingEnabled = true
  · have hself := h hon
    rw [if_pos hon, shown_of_enabled hon, load_pdSlot hself hlt]
    cases htable : m.table (pdIndex virt) with
    | none =>
        rw [tr_of_no_table (by rw [← hdiv]; exact htable)]
        simp [decode_eq_none.mp htable]
    | some f =>
        rw [tr_of_table (f := f) (by rw [← hdiv]; exact htable), ← ptIndex_eq]
        simp only [Option.bind_eq_bind, Option.bind_some, (decode_eq_some.mp htable).1, if_true,
          load_ptSlot hself hlt htable]
        cases hpte : m.slot f (ptIndex virt) with
        | none => simp [decode_eq_none.mp hpte]
        | some g =>
            obtain ⟨hpres, rfl⟩ := decode_eq_some.mp hpte
            simp [hpres]
  · rw [if_neg hon, shown_of_disabled hon, ← hdiv, ← ptIndex_eq]
    dsimp only
    cases hpde : present (m.word m.kernelPageDirectory (pdIndex virt)) with
    | false => simp [decode, hpde]
    | true =>
        cases hpte : present (m.word (entryFrame (m.word m.kernelPageDirectory (pdIndex virt)))
            (ptIndex virt)) with
        | false => simp [decode, Machine.slot, hpde, hpte]
        | true => simp [decode, Machine.slot, hpde, hpte]

end Lookup

def Seen (m : Machine) (page : Nat) : Prop := m.shown page ≠ none ∧ m.shown page ≠ some 0

section Loop
variable {m : Machine}

theorem phys_eq_zero_iff (h : Readable m) {page : Nat} (hp : page < 2 ^ 20) :
    ∃ phys, vmmGetPhysicalAddr m (page * 4096) = some phys ∧ (phys = 0 ↔ ¬ Seen m page) := by
  refine ⟨_, vmmGetPhysicalAddr_shown h (by omega), ?_⟩
  rw [Nat.mul_div_cancel _ (by decide : 0 < 4096), Nat.mul_mod_left, Seen]
  cases m.shown page with
  | none => simp
  | some f => simp

/-- The loop goes up the pages to the first that it takes for a missing one. -/
theorem rangeMappedFrom_spec (h : Readable m) {last : Nat} (hlast : last < 2 ^ 20) (fuel : Nat) :
    ∀ page, page ≤ last → last - page < fuel →
      ∃ b, rangeMappedFrom m (last * 4096) fuel (page * 4096) = some b ∧
        (b = true ↔ ∀ q, page ≤ q → q < last → Seen m q) := by
  induction fuel with
  | zero =>
      intro page _ hfuel
      omega
  | succ fuel ih =>
      intro page hpage hfuel
      rw [rangeMappedFrom]
      rcases Nat.eq_or_lt_of_le hpage with rfl | hlt
      · rw [if_neg (lt_irrefl _)]
        refine ⟨true, rfl, fun _ q hq hq' => ?_, fun _ => rfl⟩
        omega
      · rw [if_pos (by omega)]
        obtain ⟨phys, hrun, hzero⟩ := phys_eq_zero_iff h (by omega : page < 2 ^ 20)
        rw [hrun]
        simp only [Option.bind_eq_bind, Option.bind_some]
        by_cases hphys : phys = 0
        · rw [if_pos hphys]
          refine ⟨false, rfl, iff_of_false Bool.false_ne_true fun hall => ?_⟩
          exact hzero.mp hphys (hall page le_rfl hlt)
        · rw [if_neg hphys, wrap_of_lt (by omega), show page * 4096 + 4096 = (page + 1) * 4096 by omega]
          obtain ⟨b, hrest, hb⟩ := ih (page + 1) hlt (by omega)
          have hseen : Seen m page := by
            by_contra hc
            exact hphys (hzero.mpr hc)
          refine ⟨b, hrest, fun ht q hq hq' => ?_, fun hall => ?_⟩
          · rcases Nat.eq_or_lt_of_le hq with rfl | hq
            · exact hseen
            · exact hb.mp ht q hq hq'
          · exact hb.mpr fun q hq hq' => hall q (by omega) hq'

end Loop

section Answer
variable {m : Machine} {virtStart size : Nat}

theorem vmmIsRangeMapped_below (h : Readable m) (hsize : 0 < size)
    (hend : virtStart + size ≤ 0xFFFFF000) :
    ∃ b, vmmIsRangeMapped m virtStart size = some b ∧
      (b = true ↔ ∀ page, InRange virtStart size page → Seen m page) := by
  rw [vmmIsRangeMapped, if_neg (by omega)]
  dsimp only
  rw [wrap_of_lt (by omega), alignUp_of_lt (by omega), alignDown]
  obtain ⟨b, hrun, hb⟩ := @rangeMappedFrom_spec _ h ((virtStart + size + (4096 - 1)) / 4096) (by omega)
    rangeFuel (virtStart / 4096) (by omega) (by unfold rangeFuel; omega)
  refine ⟨b, hrun, hb.trans ⟨fun hall page hin => ?_, fun hall page hlo hhi => ?_⟩⟩
  · obtain ⟨-, hlo, hhi⟩ := hin
    exact hall page (by omega) (by omega)
  · exact hall page ⟨by omega, by omega, by omega⟩

theorem vmmIsRangeMapped_wrapped (h : Readable m) (hv : virtStart < 2 ^ 32) (hs : size < 2 ^ 32)
    (hsize : 0 < size) (hend : 0xFFFFF000 < virtStart + size)
    (hpage : alignDown virtStart 4096 < alignUp (wrap (virtStart + size)) 4096) :
    ∃ b, vmmIsRangeMapped m virtStart size = some b ∧ (b = true ↔ Seen m (virtStart / 4096)) := by
  have hstop : alignUp (wrap (virtStart + size)) 4096 = (virtStart / 4096 + 1) * 4096 ∧
      virtStart / 4096 + 1 < 2 ^ 20 := by
    unfold alignDown alignUp wrap at *
    omega
  rw [vmmIsRangeMapped, if_neg (by omega)]
  dsimp only
  rw [hstop.1, alignDown]
  obtain ⟨b, hrun, hb⟩ := rangeMappedFrom_spec h hstop.2 rangeFuel (virtStart / 4096) (by omega)
    (by unfold rangeFuel; omega)
  refine ⟨b, hrun, hb.trans ⟨fun hall => hall _ le_rfl (by omega), fun hseen q hlo hhi => ?_⟩⟩
  obtain rfl : q = virtStart / 4096 := by omega
  exact hseen

theorem vmmIsRangeMapped_nothing (hsize : 0 < size)
    (hpage : ¬ alignDown virtStart 4096 < alignUp (wrap (virtStart + size)) 4096) :
    vmmIsRangeMapped m virtStart size = some true := by
  rw [vmmIsRangeMapped, if_neg (by omega)]
  dsimp only
  rw [rangeFuel, rangeMappedFrom, if_neg hpage]

end Answer

/-- The answer says that all pages of the range are present exactly when `ReadRight`. -/
theorem vmm_is_range_mapped_right_iff {m : Machine} (h : Readable m) {virtStart size : Nat}
    (hv : virtStart < 2 ^ 32) (hs : size < 2 ^ 32) (hsize : 0 < size) :
    ∃ b, vmmIsRangeMapped m virtStart size = some b ∧
      ((b = true ↔ AllPresent m virtStart size) ↔ ReadRight m virtStart size) := by
  unfold ReadRight
  split_ifs with hend hpage
  · obtain ⟨b, hrun, hb⟩ := vmmIsRangeMapped_below h hsize hend
    refine ⟨b, hrun, ?_⟩
    rw [hb]
    constructor
    · intro hiff hall page hin
      exact (hiff.mpr hall page hin).2
    · intro hzero
      exact ⟨fun hseen page hin => (hseen page hin).1,
        fun hall page hin => ⟨hall page hin, hzero hall page hin⟩⟩
  · obtain ⟨b, hrun, hb⟩ := vmmIsRangeMapped_wrapped h hv hs hsize (by omega) hpage
    have hin : InRange virtStart size (virtStart / 4096) := ⟨by omega, by omega, by omega⟩
    refine ⟨b, hrun, ?_⟩
    rw [hb, Seen]
    by_cases hall : AllPresent m virtStart size
    · have hfirst := hall _ hin
      simp [hall, hfirst]
    · simp only [hall, iff_false, false_and, not_false_iff, true_and, false_or]
      rw [not_and_or, not_not, not_not]
  · refine ⟨true, vmmIsRangeMapped_nothing hsize hpage, ?_⟩
    simp

/-- A directory with one page table, which maps page 0 to frame 0 as `vmm_init` does. -/
def lowMachine : Machine where
  pmm :=
    { bitsAddr := 0x200000, bits := fun _ => 0x61#8, size := 1, totalPages := 8
      freePages := 5, usedPages := 3 }
  frames f i :=
    if f = 5 ∧ i = 1023 then BitVec.ofNat 32 (5 * 4096 + 3)
    else if f = 5 ∧ i = 0 then BitVec.ofNat 32 (6 * 4096 + 3)
    else if f = 6 ∧ i = 0 then 3#32 else 0#32
  cr3 := 5
  kernelPageDirectory := 5
  pagingEnabled := true

theorem lowMachine_readable : Readable lowMachine := fun _ => by decide

/-- Page 0 is present and taken for missing; the 256 MiB below 4 GiB are not present, but
their end wraps to 0, so none of them is looked at. -/
theorem vmm_is_range_mapped_wrong :
    Readable lowMachine ∧
      AllPresent lowMachine 0 1 ∧ vmmIsRangeMapped lowMachine 0 1 = some false ∧
      ¬ AllPresent lowMachine 0xF0000000 0x10000000 ∧
      vmmIsRangeMapped lowMachine 0xF0000000 0x10000000 = some true := by
  refine ⟨lowMachine_readable, ?_, by decide, ?_, by decide⟩
  · rintro page ⟨-, hlo, -⟩
    obtain rfl : page = 0 := by omega
    decide
  · intro hall
    exact hall 0xF0000 ⟨by decide, by decide, by decide⟩ (by decide)

theorem vmm_is_range_mapped_right_first :
    ∃ b, vmmIsRangeMapped lowMachine 0 1 = some b ∧
      ((b = true ↔ AllPresent lowMachine 0 1) ↔ ReadRight lowMachine 0 1) :=
  vmm_is_range_mapped_right_iff lowMachine_readable (by decide) (by decide) (by decide)

end Frostix.Vmm
