import Frostix.Pmm.Layout
import Frostix.Pmm.Misuse
import Frostix.Pmm.Ownership

/-!
What becomes of the data that the boot loader left. `pmm_init` puts its bitmap behind the
kernel wherever that data is, and it reserves everything but the array of module
descriptors. -/
namespace Frostix.Pmm
open Machine32 ByteMemory

/-- Byte `a` belongs to `multiboot_info_t`, the memory map, a module descriptor or a module. -/
def BootData (boot : Boot) (a : Nat) : Prop :=
  (boot.mbInfo ≤ a ∧ a < boot.mbInfo + sizeofInfo) ∨
    (infoMmapAddr boot.mem boot.mbInfo ≤ a ∧
      a < infoMmapAddr boot.mem boot.mbInfo + infoMmapLength boot.mem boot.mbInfo) ∨
    (∃ i, HasModule boot i ∧ moduleAt boot i ≤ a ∧ a < moduleAt boot i + 16) ∨
    ∃ i, HasModule boot i ∧ modStart boot.mem (moduleAt boot i) ≤ a ∧ a < modEnd boot.mem (moduleAt boot i)

def MapFormed (boot : Boot) : Prop :=
  ∀ e, Visited boot e → infoMmapAddr boot.mem boot.mbInfo ≤ e ∧
    e + 24 ≤ infoMmapAddr boot.mem boot.mbInfo + infoMmapLength boot.mem boot.mbInfo

def PmmOp.IsAlloc : PmmOp → Prop
  | .allocPage => True
  | .allocPages _ => True
  | .freePage _ => False
  | .freePages _ _ => False

def AllocStep (s : Owned) (op : PmmOp) (t : Owned) : Prop := op.IsAlloc ∧ t = (s.exec op).2

/-- `pmm_init` has filled the bytes from `bits` on, `size` of them, and has written nothing
else: no byte of the boot data is among them. -/
def Unwritten (boot : Boot) (p : BitmapAllocator) : Prop :=
  ∀ a, BootData boot a → ¬ wsub a p.bitsAddr < p.size

/-- The place that the bitmap gets holds no byte of the boot data. -/
def AreaClear (boot : Boot) (top : Nat) : Prop := ∀ a, BootData boot a → ¬ InBitmapArea boot top a

/-- No allocation of a run without frees returns a page with boot data. -/
def NeverReturned (boot : Boot) (p : BitmapAllocator) : Prop :=
  ∀ s, Transition.Run AllocStep ⟨p, ∅⟩ s → ∀ op : PmmOp, op.IsAlloc →
    ∀ page ∈ blockPages (s.exec op).1 op.pages, ∀ a, BootData boot a → a / 4096 ≠ page

/-- A page of the descriptor array that could be freed touches something reserved. -/
def DescriptorsCovered (boot : Boot) (top : Nat) : Prop :=
  ∀ i, HasModule boot i → ∀ page, PageOverlaps page (moduleAt boot i) 16 → Usable boot page →
    ReservedPage boot (fullBitmap boot top) page

theorem AllocStep.owned {s t : Owned} (run : Transition.Run AllocStep s t) : Transition.Run OwnedStep s t := by
  have hpreserves : ∀ u op v, AllocStep u op v → Transition.Run OwnedStep s u →
    Transition.Run OwnedStep s v := by
    rintro u op v ⟨hop, heq⟩ hrun
    cases op with
    | allocPage => exact hrun.snoc (a := .allocPage) ⟨trivial, heq⟩
    | allocPages count => exact hrun.snoc (a := .allocPages count) ⟨trivial, heq⟩
    | freePage addr => exact absurd hop id
    | freePages addr count => exact absurd hop id
  exact run.invariant hpreserves (Transition.Run.refl s)

theorem Empty.exec {p : BitmapAllocator} (h : Empty p) {op : PmmOp} (hop : op.IsAlloc) :
    op.exec p = (0, p) := by
  cases op with
  | allocPage => exact h.allocPage
  | allocPages count => exact h.allocPages count
  | freePage addr => exact absurd hop id
  | freePages addr count => exact absurd hop id

theorem free_of_returned {p : BitmapAllocator} (h : Ready p) {s : Owned}
    (run : Transition.Run AllocStep ⟨p, ∅⟩ s) {op : PmmOp} (hop : op.IsAlloc) {page : Nat}
    (hpage : page ∈ blockPages (s.exec op).1 op.pages) : Free p page := by
  have haddr : (s.exec op).1 ≠ 0 := by
    intro hzero
    rw [blockPages, if_pos hzero] at hpage
    exact Finset.notMem_empty _ hpage
  rcases h with hwf | hempty
  · have hallowed : op.Allowed s := by
      cases op with
      | allocPage => trivial
      | allocPages count => trivial
      | freePage addr => exact absurd hop id
      | freePages addr count => exact absurd hop id
    have hcons := Consistent.of_run hwf (fun b hb => absurd hb (Finset.notMem_empty b)) (AllocStep.owned run)
    obtain ⟨first, heq, -, hfresh⟩ := (hcons.step op hallowed).2 haddr
    rw [heq] at haddr hpage
    rw [blockPages, if_neg haddr, Nat.mul_div_cancel _ (by decide), Finset.mem_Ico] at hpage
    obtain ⟨-, -, hres⟩ := hfresh (page - first) (by omega)
    rw [show first + (page - first) = page by omega] at hres
    by_contra hnot
    exact hres ⟨hnot, Finset.notMem_empty _⟩
  · -- an empty allocator stays as it is and returns nothing
    have hpreserves : ∀ t op' u, AllocStep t op' u → t.pmm = p → u.pmm = p := by
      rintro t op' u ⟨hop', rfl⟩ ht
      simp only [Owned.exec, ht, hempty.exec hop']
    have hsame : s.pmm = p := run.invariant hpreserves rfl
    refine absurd ?_ haddr
    simp only [Owned.exec, hsame, hempty.exec hop]

theorem returned_of_free {p : BitmapAllocator} (h : WellFormed p) {page : Nat} (hpage : Free p page) :
    ∀ held, ∃ s, Transition.Run AllocStep ⟨p, held⟩ s ∧ (s.exec .allocPage).1 = page * 4096 := by
  induction hfree : p.freePages using Nat.strong_induction_on generalizing p with
  | _ n ih =>
      intro held
      rcases pmmAllocPage_spec h with ⟨-, hnone⟩ | ⟨b, q, halloc, htaken, hq⟩
      · exact absurd hpage (hnone page)
      · by_cases hb : page = b
        · subst hb
          refine ⟨⟨p, held⟩, Transition.Run.refl _, ?_⟩
          simp only [Owned.exec, PmmOp.exec, halloc]
        · have hstill : Free q page := (htaken.free_iff page).mpr ⟨hpage, by omega⟩
          have hless := htaken.freePages_eq
          obtain ⟨s, run, hlast⟩ := ih q.freePages (by omega) hq hstill rfl
            (((⟨p, held⟩ : Owned).exec .allocPage).2.held)
          have hrest : Transition.Run AllocStep ((⟨p, held⟩ : Owned).exec .allocPage).2 s := by
            simpa only [Owned.exec, PmmOp.exec, halloc] using run
          exact ⟨s, Transition.Run.cons (a := .allocPage) ⟨trivial, rfl⟩ hrest, hlast⟩

theorem pageOverlaps_of_byte {a start len : Nat} (hlo : start ≤ a) (hhi : a < start + len) :
    PageOverlaps (a / 4096) start len := by
  unfold PageOverlaps
  omega

theorem PageOverlaps.byte {page start len : Nat} (h : PageOverlaps page start len) :
    ∃ a, start ≤ a ∧ a < start + len ∧ a / 4096 = page := by
  obtain ⟨hlen, hlo, hhi⟩ := h
  rcases le_total start (page * 4096) with hle | hle
  · exact ⟨page * 4096, hle, hhi, by omega⟩
  · exact ⟨start, le_rfl, by omega, by omega⟩

section Boot

variable {fuel top : Nat} {boot : Boot} {p : BitmapAllocator}

theorem sameArea_markRegionAllocated (p : BitmapAllocator) (start len : Nat) :
    SameArea p (markRegionAllocated p start len) := by
  unfold markRegionAllocated
  split
  · exact SameArea.refl p
  · exact Loop.foldl_range (fun _ q => SameArea p q) (SameArea.refl p)
      fun i _ q hpq => hpq.trans (sameArea_markPage q _)

theorem sameArea_freeEntry (p : BitmapAllocator) (m : Mem) (e : Nat) : SameArea p (freeEntry p m e) := by
  unfold freeEntry
  split
  · refine Loop.foldl_range (fun _ q => SameArea p q) (SameArea.refl p) fun i _ q hpq => hpq.trans ?_
    unfold freeEntryPage
    dsimp only
    split
    · exact SameArea.refl q
    · exact sameArea_releasePage q _
  · exact SameArea.refl p

theorem sameArea_freeEntries {q : BitmapAllocator} {e : Nat} (h : freeEntries boot fuel p e = some q) :
    SameArea p q := by
  induction fuel generalizing p e with
  | zero => cases h
  | succ fuel ih =>
      unfold freeEntries at h
      split at h
      · exact (sameArea_freeEntry p _ e).trans (ih h)
      · cases h
        exact SameArea.refl _

theorem sameArea_markModulesFrom (mods left : Nat) (p : BitmapAllocator) (i : Nat) :
    SameArea p (markModulesFrom boot mods left p i) := by
  induction left generalizing p i with
  | zero => exact SameArea.refl p
  | succ left ih =>
      unfold markModulesFrom
      dsimp only
      split
      · exact (sameArea_markRegionAllocated p _ _).trans (ih _ _)
      · exact SameArea.refl p

theorem sameArea_reserveBootData (p : BitmapAllocator) : SameArea p (reserveBootData boot p) := by
  have hmodules : ∀ q, SameArea q (markModules boot q) := by
    intro q
    unfold markModules
    dsimp only
    split
    · exact sameArea_markModulesFrom _ _ q 0
    · exact SameArea.refl q
  exact (((sameArea_markRegionAllocated p _ _).trans (sameArea_markRegionAllocated _ _ _)).trans
    (hmodules _)).trans (sameArea_markRegionAllocated _ _ _)

/-- The bitmap stays where the first walk puts it, whatever `pmm_init` reads. -/
theorem pmmInit_area (htop : maxAddr boot.mem boot.mbInfo fuel (infoMmapAddr boot.mem boot.mbInfo) 0 = some top)
    (hinit : pmmInit fuel boot = some (.ok, p)) : SameArea (fullBitmap boot top) p := by
  obtain ⟨t, q, ht, hq, hp⟩ := pmmInit_cases hinit
  cases htop.symm.trans ht
  have hreserved : SameArea (fullBitmap boot top) (reservedBitmap boot top) :=
    (sameArea_markRegionAllocated _ _ _).trans (sameArea_markRegionAllocated _ _ _)
  rw [hp]
  exact (hreserved.trans (sameArea_freeEntries hq)).trans (sameArea_reserveBootData q)

theorem AreaClear.apart (h : AreaClear boot top) (hmap : MapFormed boot)
    (hfits : (fullBitmap boot top).bitsAddr + (fullBitmap boot top).size < 2 ^ 32) :
    BitmapApart boot top := by
  refine ⟨fun a hlo hhi => h a (Or.inl ⟨hlo, hhi⟩), ?_, ?_, hfits⟩
  · intro e hv a hlo hhi
    obtain ⟨hstart, hstop⟩ := hmap e hv
    exact h a (Or.inr (Or.inl ⟨by omega, by omega⟩))
  · intro i hi a hlo hhi
    exact h a (Or.inr (Or.inr (Or.inl ⟨i, hi, hlo, by omega⟩)))

theorem reserved_of_bootData (hcovered : DescriptorsCovered boot top) {a : Nat} (ha : BootData boot a)
    (husable : Usable boot (a / 4096)) : ReservedPage boot (fullBitmap boot top) (a / 4096) := by
  rcases ha with ⟨hlo, hhi⟩ | ⟨hlo, hhi⟩ | ⟨i, hi, hlo, hhi⟩ | ⟨i, hi, hlo, hhi⟩
  · exact Or.inr (Or.inl (pageOverlaps_of_byte hlo hhi))
  · exact Or.inr (Or.inr (Or.inl (pageOverlaps_of_byte hlo hhi)))
  · exact hcovered i hi _ (pageOverlaps_of_byte hlo hhi) husable
  · exact Or.inr (Or.inr (Or.inr (Or.inl ⟨i, hi, pageOverlaps_of_byte hlo (by omega)⟩)))

end Boot

/-- On maps below 4 GiB: `pmm_init` writes no byte of the boot data and no run of allocations
returns a page of it, if and only if the place of the bitmap holds none of it and every page
of the descriptor array that lies in available memory touches something reserved. -/
theorem boot_data_kept_iff {fuel top : Nat} {boot : Boot} {p : BitmapAllocator} (hwords : BootWords boot)
    (hmap : MapFormed boot)
    (hbelow : ∀ e, Visited boot e → entryType boot.mem e = 1 →
      entryAddr boot.mem e + entryLen boot.mem e ≤ 2 ^ 32)
    (hmods : ∀ i, HasModule boot i →
      modStart boot.mem (moduleAt boot i) ≤ modEnd boot.mem (moduleAt boot i))
    (htop : maxAddr boot.mem boot.mbInfo fuel (infoMmapAddr boot.mem boot.mbInfo) 0 = some top)
    (hfits : (fullBitmap boot top).bitsAddr + (fullBitmap boot top).size < 2 ^ 32)
    (hinit : pmmInit fuel boot = some (.ok, p)) :
    (Unwritten boot p ∧ NeverReturned boot p) ↔ AreaClear boot top ∧ DescriptorsCovered boot top := by
  have harea := pmmInit_area htop hinit
  have hsame : Unwritten boot p ↔ AreaClear boot top := by
    unfold Unwritten AreaClear InBitmapArea
    rw [harea.addr, harea.size]
  rw [hsame]
  refine and_congr_right fun hclear => ?_
  have hapart : ∀ t, maxAddr boot.mem boot.mbInfo fuel (infoMmapAddr boot.mem boot.mbInfo) 0 = some t →
      BitmapApart boot t := by
    intro t ht
    cases htop.symm.trans ht
    exact hclear.apart hmap hfits
  obtain ⟨hready, hfree⟩ := free_pmmInit hwords hbelow hmods hapart hinit
  have hreserved : ∀ page, ReservedPage boot p page ↔ ReservedPage boot (fullBitmap boot top) page := by
    intro page
    unfold ReservedPage
    rw [harea.addr, harea.size]
  constructor
  · intro hnever i hi page hover husable
    by_contra hnot
    have hpage : Free p page := (hfree page).mpr ⟨husable, fun hres => hnot ((hreserved page).mp hres)⟩
    rcases hready with hwf | hempty
    · obtain ⟨s, run, haddr⟩ := returned_of_free hwf hpage ∅
      obtain ⟨a, hlo, hhi, hin⟩ := hover.byte
      have hpos := (hwf.free_bounds hpage).1
      refine hnever s run .allocPage trivial page ?_ a (Or.inr (Or.inr (Or.inl ⟨i, hi, hlo, hhi⟩))) hin
      rw [haddr, blockPages, if_neg (by omega), Nat.mul_div_cancel _ (by decide), Finset.mem_Ico]
      exact ⟨le_rfl, Nat.lt_succ_self page⟩
    · exact hempty.not_free page hpage
  · intro hcovered s run op hop page hpage a ha hin
    obtain ⟨husable, hnot⟩ := (hfree page).mp (free_of_returned hready run hop hpage)
    subst hin
    exact hnot ((hreserved _).mpr (reserved_of_bootData hcovered ha husable))

/-- The low boot data of `lowBoot` and its module are kept. -/
theorem boot_data_kept_low :
    ∃ p, pmmInit 2 lowBoot = some (.ok, p) ∧ Unwritten lowBoot p ∧ NeverReturned lowBoot p := by
  obtain ⟨p, hinit⟩ := lowBoot_init
  have htop : maxAddr lowBoot.mem lowBoot.mbInfo 2 (infoMmapAddr lowBoot.mem lowBoot.mbInfo) 0 =
      some 0x200000 := by decide
  have hbuffer : infoMmapAddr lowBoot.mem lowBoot.mbInfo = 0x9100 ∧
      infoMmapLength lowBoot.mem lowBoot.mbInfo = 24 := by decide
  have hmodule : moduleAt lowBoot 0 = 0x9200 ∧ modStart lowBoot.mem 0x9200 = 0x1C0000 ∧
      modEnd lowBoot.mem 0x9200 = 0x1C1000 := by decide
  have harea : ∀ a, a < 0x180000 ∨ 0x181000 ≤ a ∧ a < 2 ^ 32 → ¬ InBitmapArea lowBoot 0x200000 a := by
    intro a ha
    have haddr : (fullBitmap lowBoot 0x200000).bitsAddr = 0x180000 := rfl
    have hsize : (fullBitmap lowBoot 0x200000).size = 0x1000 := by decide
    rw [InBitmapArea, haddr, hsize]
    unfold wsub wrap
    omega
  have hwords : BootWords lowBoot := moduleBoot_words (by decide) _ _ _
  refine ⟨p, hinit, (boot_data_kept_iff hwords ?_ ?_ ?_ htop (by decide) hinit).mpr ⟨?_, ?_⟩⟩
  · intro e hv
    rw [lowBoot_visited hv, hbuffer.1, hbuffer.2]
    exact ⟨le_rfl, le_rfl⟩
  · intro e hv _
    rw [lowBoot_visited hv]
    decide
  · intro i hi
    rw [lowBoot_module hi]
    decide
  · have hinfo : lowBoot.mbInfo + sizeofInfo < 0x180000 := by decide
    rintro a (⟨-, hhi⟩ | ⟨-, hhi⟩ | ⟨i, hi, -, hhi⟩ | ⟨i, hi, hlo, hhi⟩)
    · exact harea a (Or.inl (lt_trans hhi hinfo))
    · rw [hbuffer.1, hbuffer.2] at hhi
      exact harea a (Or.inl (by omega))
    · rw [lowBoot_module hi, hmodule.1] at hhi
      exact harea a (Or.inl (by omega))
    · rw [lowBoot_module hi, hmodule.1, hmodule.2.1] at hlo
      rw [lowBoot_module hi, hmodule.1, hmodule.2.2] at hhi
      exact harea a (Or.inr ⟨by omega, by omega⟩)
  · rintro i hi page ⟨-, -, hover⟩ ⟨e, -, -, haddr, hin, -⟩
    rw [lowBoot_module hi, hmodule.1] at hover
    omega

/-- All boot data lies in available memory above the kernel image. -/
def PlacedAbove (boot : Boot) : Prop :=
  ∀ a, BootData boot a → boot.kernelEnd ≤ a ∧ ∃ e, Visited boot e ∧ entryType boot.mem e = 1 ∧
    entryAddr boot.mem e ≤ a ∧ a < entryAddr boot.mem e + entryLen boot.mem e

/-- The module lies right behind the kernel, the other data further up. -/
def behindBoot : Boot := moduleBoot 0x1A0000 0x1A0100 0x1A0200 0x180000

/-- The bitmap goes to the place of the module. -/
theorem pmm_init_overwrites_module :
    ¬ ∀ (fuel : Nat) (boot : Boot) (p : BitmapAllocator), BootWords boot → MapFormed boot → PlacedAbove boot →
      pmmInit fuel boot = some (.ok, p) → Unwritten boot p ∧ NeverReturned boot p := by
  intro h
  have hvisited : ∀ {e}, Visited behindBoot e → e = 0x1A0100 := visited_single (by decide) (by decide)
  have hcount : infoModsCount behindBoot.mem behindBoot.mbInfo = 1 := by decide
  have hmodule : ∀ {i}, HasModule behindBoot i → i = 0 := by
    intro i hi
    have hmod := hi.2
    rwa [hcount, Nat.lt_one_iff] at hmod
  have hbuffer : infoMmapAddr behindBoot.mem behindBoot.mbInfo = 0x1A0100 ∧
      infoMmapLength behindBoot.mem behindBoot.mbInfo = 24 := by decide
  have hdata : moduleAt behindBoot 0 = 0x1A0200 ∧ modStart behindBoot.mem 0x1A0200 = 0x180000 ∧
      modEnd behindBoot.mem 0x1A0200 = 0x181000 := by decide
  have hentry : Visited behindBoot 0x1A0100 ∧ entryType behindBoot.mem 0x1A0100 = 1 ∧
      entryAddr behindBoot.mem 0x1A0100 = 0x100000 ∧ entryLen behindBoot.mem 0x1A0100 = 0x100000 :=
    ⟨VisitedFrom.here (by decide), by decide, by decide, by decide⟩
  have hplaced : PlacedAbove behindBoot := by
    have hkernel : behindBoot.kernelEnd = 0x180000 := rfl
    have hinfo : behindBoot.mbInfo = 0x1A0000 ∧ sizeofInfo = 118 := ⟨rfl, rfl⟩
    intro a ha
    have hbounds : 0x180000 ≤ a ∧ a < 0x200000 := by
      rcases ha with ⟨hlo, hhi⟩ | ⟨hlo, hhi⟩ | ⟨i, hi, hlo, hhi⟩ | ⟨i, hi, hlo, hhi⟩
      · rw [hinfo.1] at hlo hhi
        rw [hinfo.2] at hhi
        omega
      · rw [hbuffer.1] at hlo hhi
        rw [hbuffer.2] at hhi
        omega
      · rw [hmodule hi, hdata.1] at hlo hhi
        omega
      · rw [hmodule hi, hdata.1] at hlo hhi
        rw [hdata.2.1] at hlo
        rw [hdata.2.2] at hhi
        omega
    refine ⟨by rw [hkernel]; exact hbounds.1, 0x1A0100, hentry.1, hentry.2.1, ?_, ?_⟩
    · rw [hentry.2.2.1]
      omega
    · rw [hentry.2.2.1, hentry.2.2.2]
      omega
  have hformed : MapFormed behindBoot := by
    intro e hv
    rw [hvisited hv, hbuffer.1, hbuffer.2]
    exact ⟨le_rfl, le_rfl⟩
  have hsome : (pmmInit 2 behindBoot).map (fun r => (r.1, r.2.bitsAddr, r.2.size)) =
      some (.ok, 0x180000, 0x1000) := by decide +kernel
  obtain ⟨⟨st, p⟩, hinit, heq⟩ := Option.map_eq_some_iff.mp hsome
  simp only [Prod.mk.injEq] at heq
  obtain ⟨rfl, haddr, hsize⟩ := heq
  have hfirst : BootData behindBoot 0x180000 := by
    refine Or.inr (Or.inr (Or.inr ⟨0, ⟨by decide, by decide⟩, ?_⟩))
    rw [hdata.1, hdata.2.1, hdata.2.2]
    exact ⟨le_rfl, by decide⟩
  refine (h 2 behindBoot p (moduleBoot_words (by decide) _ _ _) hformed hplaced hinit).1 0x180000 hfirst ?_
  rw [haddr, hsize]
  decide

end Frostix.Pmm
