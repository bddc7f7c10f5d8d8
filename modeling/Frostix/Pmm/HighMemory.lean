import Frostix.Pmm.BootData

/-!
Memory above 4 GiB. `pmm_init` manages it, but the address of a page is computed in 32 bits.
As long as no page above 4 GiB is free, the address of every allocation is exact; a free page
above is handed out under the address of another one, or as a failure. -/
namespace Frostix.Pmm
open Machine32 ByteMemory RunSearch

def Low (p : BitmapAllocator) : Prop := ∀ b, Free p b → 0 < b ∧ b < 2 ^ 20

/-- An argument of type `u32`. -/
def PmmOp.Word : PmmOp → Prop
  | .allocPage => True
  | .allocPages count => count < 2 ^ 32
  | .freePage addr => addr < 2 ^ 32
  | .freePages addr count => addr < 2 ^ 32 ∧ count < 2 ^ 32

/-- The call fails and changes nothing, or it marks free pages and returns the exact address of
the first one, which is not 0; no page of the block is held already. -/
def Exact (s : Owned) (op : PmmOp) : Prop :=
  ((s.exec op).1 = 0 ∧ (s.exec op).2.pmm = s.pmm) ∨
    ∃ first, (s.exec op).1 = first * 4096 ∧ 0 < first ∧
      (∀ b, Free (s.exec op).2.pmm b ↔ Free s.pmm b ∧ ¬ (first ≤ b ∧ b < first + op.pages)) ∧
      ∀ b, first ≤ b → b < first + op.pages → Free s.pmm b ∧ b ∉ s.held

def WordStep (s : Owned) (op : PmmOp) (t : Owned) : Prop := op.Word ∧ AllocStep s op t

theorem Low.indexed {p : BitmapAllocator} (h : Low p) : Indexed p := by
  intro b hb
  have hlt := (h b hb).2
  omega

/-- `pmm_alloc_page` where every free page has a 32-bit address; the counters may be anything. -/
theorem pmmAllocPage_low {p : BitmapAllocator} (h : Low p) :
    pmmAllocPage p = (0, p) ∨
      ∃ first q, pmmAllocPage p = (first * 4096, q) ∧ 0 < first ∧ Free p first ∧
        ∀ b, Free q b ↔ Free p b ∧ ¬ (first ≤ b ∧ b < first + 1) := by
  unfold pmmAllocPage
  dsimp only
  by_cases hzero : p.freePages = 0
  · exact Or.inl (if_pos hzero)
  rw [if_neg hzero]
  rcases bitmapFindFreeBit_spec h.indexed with ⟨hnone, -⟩ | ⟨hfree, -⟩
  · exact Or.inl (if_pos hnone)
  · obtain ⟨hpos, hlt⟩ := h _ hfree
    have hne : bitmapFindFreeBit p ≠ noBit := by
      unfold noBit
      omega
    rw [if_neg hne, wrap_of_lt (by omega)]
    refine Or.inr ⟨_, _, rfl, hpos, hfree, fun b => ?_⟩
    change b < (bitmapSetBit p _).size * 8 ∧ bitAt (bitmapSetBit p _) b = false ↔ _
    rw [bitmapSetBit_size, bitAt_setBit hfree.1, Bool.or_eq_false_iff, decide_eq_false_iff_not, Free,
      and_assoc]
    refine and_congr_right fun _ => ?_
    rw [and_comm]
    exact and_congr_right fun _ => by omega

theorem pmmAllocPages_low {p : BitmapAllocator} (h : Low p) {count : Nat} (hcount : count < 2 ^ 32) :
    pmmAllocPages p count = (0, p) ∨
      ∃ first q, pmmAllocPages p count = (first * 4096, q) ∧ 0 < first ∧
        (∀ b, first ≤ b → b < first + count → Free p b) ∧
        ∀ b, Free q b ↔ Free p b ∧ ¬ (first ≤ b ∧ b < first + count) := by
  unfold pmmAllocPages
  dsimp only
  by_cases hfew : p.freePages < count
  · exact Or.inl (if_pos hfew)
  rw [if_neg hfew]
  rcases Nat.eq_zero_or_pos count with rfl | hpos
  · exact Or.inl (if_pos (bitmapFindFreeBits_zero p))
  rcases bitmapFindFreeBits_spec h.indexed hcount hpos with ⟨hnone, -⟩ | hlow
  · exact Or.inl (if_pos hnone)
  · obtain ⟨hfirst, hlt⟩ := h _ (hlow.run 0 hpos)
    obtain ⟨-, hlast⟩ := h _ (hlow.run (count - 1) (by omega))
    have hne : bitmapFindFreeBits p count ≠ noBit := by
      unfold noBit
      omega
    obtain ⟨hbits, hsize, -⟩ := @setRun_spec p (bitmapFindFreeBits p count) count (by omega) hlow.fits
    rw [if_neg hne, wrap_of_lt (by omega)]
    refine Or.inr ⟨_, _, rfl, hfirst, fun b hlo hhi => ?_, fun b => ?_⟩
    · have hfree := hlow.run (b - bitmapFindFreeBits p count) (by omega)
      rwa [show bitmapFindFreeBits p count + (b - bitmapFindFreeBits p count) = b by omega] at hfree
    · change b < (setRun p _ count).size * 8 ∧ bitAt (setRun p _ count) b = false ↔ _
      rw [hsize, hbits, Bool.or_eq_false_iff, decide_eq_false_iff_not, Free, and_assoc]

def LowAndHeld (s : Owned) : Prop := Low s.pmm ∧ ∀ b ∈ s.held, ¬ Free s.pmm b

theorem LowAndHeld.take {s : Owned} (h : LowAndHeld s) {op : PmmOp} (hop : op.freed = ∅) {first : Nat}
    {q : BitmapAllocator} (hexec : op.exec s.pmm = (first * 4096, q)) (hpos : 0 < first)
    (hrun : ∀ b, first ≤ b → b < first + op.pages → Free s.pmm b)
    (hfree : ∀ b, Free q b ↔ Free s.pmm b ∧ ¬ (first ≤ b ∧ b < first + op.pages)) :
    LowAndHeld (s.exec op).2 ∧ Exact s op := by
  have hstep : s.exec op = (first * 4096, ⟨q, s.held ∪ blockPages (first * 4096) op.pages⟩) := by
    simp only [Owned.exec, hexec, hop, Finset.sdiff_empty]
  rw [Exact, hstep]
  refine ⟨⟨fun b hb => h.1 b ((hfree b).mp hb).1, ?_⟩, Or.inr ⟨first, rfl, hpos, hfree, ?_⟩⟩
  · intro b hb hclear
    rcases Finset.mem_union.mp hb with hold | hnew
    · exact h.2 b hold ((hfree b).mp hclear).1
    · rw [blockPages, if_neg (by omega), Nat.mul_div_cancel _ (by decide), Finset.mem_Ico] at hnew
      exact ((hfree b).mp hclear).2 hnew
  · exact fun b hlo hhi => ⟨hrun b hlo hhi, fun hheld => h.2 b hheld (hrun b hlo hhi)⟩

theorem LowAndHeld.fail {s : Owned} (h : LowAndHeld s) {op : PmmOp} (hop : op.freed = ∅)
    (hexec : op.exec s.pmm = (0, s.pmm)) : LowAndHeld (s.exec op).2 ∧ Exact s op := by
  have hstep : s.exec op = (0, s) := by
    simp only [Owned.exec, hexec, hop, blockPages, if_true, Finset.union_empty, Finset.sdiff_empty]
  rw [Exact, hstep]
  exact ⟨h, Or.inl ⟨rfl, rfl⟩⟩

theorem LowAndHeld.step {s : Owned} (h : LowAndHeld s) {op : PmmOp} (hop : op.IsAlloc) (hword : op.Word) :
    LowAndHeld (s.exec op).2 ∧ Exact s op := by
  cases op with
  | allocPage =>
      rcases pmmAllocPage_low h.1 with hfail | ⟨first, q, hexec, hpos, hfirst, hfree⟩
      · exact h.fail rfl hfail
      · refine h.take rfl hexec hpos (fun b hlo hhi => ?_) hfree
        have hhi' : b < first + 1 := hhi
        rwa [show b = first by omega]
  | allocPages count =>
      rcases pmmAllocPages_low h.1 hword with hfail | ⟨first, q, hexec, hpos, hrun, hfree⟩
      · exact h.fail rfl hfail
      · exact h.take rfl hexec hpos hrun hfree
  | freePage addr => exact absurd hop id
  | freePages addr count => exact absurd hop id

/-- After `pmm_init`, on a layout whose available memory ends below 4 GiB no page above is free;
and wherever none is, whatever the layout, every allocation of every run without frees returns
the exact address of what it marks, never 0 and never a page that is still held. -/
theorem alloc_run_exact {fuel : Nat} {boot : Boot} {p : BitmapAllocator}
    (hinit : pmmInit fuel boot = some (.ok, p)) :
    (BootOk boot → Low p) ∧
      (Low p → ∀ s, Transition.Run WordStep ⟨p, ∅⟩ s → ∀ op : PmmOp, op.IsAlloc → op.Word → Exact s op) := by
  constructor
  · intro hboot b hb
    rcases pmmInit_keeps hboot hinit with hwf | hempty
    · obtain ⟨hpos, hlt⟩ := hwf.free_bounds hb
      exact ⟨hpos, lt_of_lt_of_le hlt hwf.total_le⟩
    · exact absurd hb (hempty.not_free b)
  · intro hlow s run op hop hword
    have hstart : LowAndHeld ⟨p, ∅⟩ := ⟨hlow, fun b hb => absurd hb (Finset.notMem_empty b)⟩
    have hpreserves : ∀ t op u, WordStep t op u → LowAndHeld t → LowAndHeld u := by
      rintro t op u ⟨hword, hop, rfl⟩ ht
      exact (ht.step hop hword).1
    exact ((run.invariant hpreserves hstart).step hop hword).2

theorem alloc_run_exact_low :
    ∃ p, pmmInit 2 demoBoot = some (.ok, p) ∧ Exact ⟨p, ∅⟩ (.allocPages 2) := by
  obtain ⟨p, hinit, -⟩ := demoBoot_init
  obtain ⟨hlow, hexact⟩ := alloc_run_exact hinit
  exact ⟨p, hinit, hexact (hlow demoBoot_ok) _ (Transition.Run.refl _) _ trivial (by decide : 2 < 2 ^ 32)⟩

def highBoot : Boot where
  mem :=
    let m : Mem := fun _ => 0#8
    let m := store32 m 0x9000 0x40
    let m := store32 m 0x902C 24
    let m := store32 m 0x9030 0x9100
    let m := store32 m 0x9100 20
    let m := store32 m 0x9108 1
    let m := store32 m 0x910C 0x1000
    store32 m 0x9114 1
  mbInfo := 0x9000
  kernelEnd := 0x180000

theorem markRegionAllocated_of_marked {p : BitmapAllocator} {start len : Nat}
    (h : ∀ page, wrap (start / 4096) ≤ page → page < wrap ((start + len + 4095) % 2 ^ 64 / 4096) →
      page < p.totalPages → bitmapTestBit p page = true) : markRegionAllocated p start len = p := by
  unfold markRegionAllocated
  split
  · rfl
  · refine Loop.foldl_range (fun _ q => q = p) rfl ?_
    rintro i hi q rfl
    exact if_pos (h _ (by omega) (by omega) (by omega))

def highFull : BitmapAllocator := fullBitmap highBoot 0x100001000

theorem highFull_size : highFull.size = 135168 ∧ highFull.totalPages = 0x100001 := by decide

theorem highFull_marked {page : Nat} (h : page < highFull.totalPages) : bitmapTestBit highFull page = true := by
  obtain ⟨hsize, htotal⟩ := highFull_size
  have hall : ∀ j < 8, (0xFF#8).getLsbD j = true := by decide
  have hset : bitAt highFull page = true := hall (page % 8) (Nat.mod_lt _ (by decide))
  rw [bitmapTestBit_eq, hset, hsize]
  simp only [Bool.and_true, decide_eq_true_eq]
  omega

theorem highFull_free (b : Nat) : Free (releasePage highFull 0x100000) b ↔ b = 0x100000 := by
  obtain ⟨hsize, htotal⟩ := highFull_size
  rw [free_releasePage_iff (by rw [hsize]; decide)]
  refine or_iff_right fun hb => ?_
  have hall : ∀ j < 8, (0xFF#8).getLsbD j = true := by decide
  have hset : bitAt highFull b = true := hall (b % 8) (Nat.mod_lt _ (by decide))
  rw [hb.2] at hset
  cases hset

/-- `pmm_init` frees the page above 4 GiB and no other. -/
theorem highBoot_init : pmmInit 2 highBoot = some (.ok, releasePage highFull 0x100000) := by
  obtain ⟨hsize, htotal⟩ := highFull_size
  have htop : maxAddr highBoot.mem highBoot.mbInfo 2 (infoMmapAddr highBoot.mem highBoot.mbInfo) 0 =
      some 0x100001000 := by decide
  have hreserved : reservedBitmap highBoot 0x100001000 = highFull := by
    have hlow : markRegionAllocated highFull 0 0x100000 = highFull :=
      markRegionAllocated_of_marked fun page _ _ hlt => highFull_marked hlt
    have harea : markRegionAllocated highFull highFull.bitsAddr highFull.size = highFull :=
      markRegionAllocated_of_marked fun page _ _ hlt => highFull_marked hlt
    change markRegionAllocated (markRegionAllocated highFull 0 0x100000)
      (markRegionAllocated highFull 0 0x100000).bitsAddr (markRegionAllocated highFull 0 0x100000).size = _
    rw [hlow, harea]
  have hmarked : ∀ page, page < 0x100000 → bitmapTestBit (releasePage highFull 0x100000) page = true := by
    intro page hlt
    refine testBit_iff.mpr ⟨?_, fun hfree => absurd ((highFull_free page).mp hfree) (by omega)⟩
    rw [(sameArea_releasePage highFull _).size, hsize]
    omega
  have hwalk : freeEntries highBoot 2 highFull 0x9100 = some (releasePage highFull 0x100000) := by
    have hentry : freeEntry highFull (overlay highFull highBoot.mem) 0x9100 = releasePage highFull 0x100000 := by
      have hcond : entryType (overlay highFull highBoot.mem) 0x9100 = 1 ∧
          0x100000 ≤ entryAddr (overlay highFull highBoot.mem) 0x9100 := by decide
      have hpages : wrap ((entryAddr (overlay highFull highBoot.mem) 0x9100 + 4095) % 2 ^ 64 / 4096) = 0x100000 ∧
          wrap (entryEnd (overlay highFull highBoot.mem) 0x9100 / 4096) = 0x100001 := by decide
      have hout : ¬ (highFull.bitsAddr ≤ wrap (0x100000 * 4096) ∧
          wrap (0x100000 * 4096) < wrap (highFull.bitsAddr + highFull.size)) := by decide
      have hpage : freeEntryPage highFull 0x100000 = releasePage highFull 0x100000 := by
        rw [freeEntryPage, if_neg hout]
      rw [freeEntry, if_pos hcond, hpages.1, hpages.2]
      exact hpage
    rw [freeEntries, if_pos (by decide)]
    dsimp only
    rw [hentry, freeEntries, if_neg (by decide)]
  -- the freed page reads as address 0 and lies in nothing that is reserved
  have hmark : ∀ start len, wrap ((start + len + 4095) % 2 ^ 64 / 4096) ≤ 0x100000 →
      markRegionAllocated (releasePage highFull 0x100000) start len = releasePage highFull 0x100000 :=
    fun start len hend => markRegionAllocated_of_marked fun page _ hlt _ => hmarked page (by omega)
  have hreserve : reserveBootData highBoot (releasePage highFull 0x100000) = releasePage highFull 0x100000 := by
    have hmods : markModules highBoot (releasePage highFull 0x100000) = releasePage highFull 0x100000 := by
      rw [markModules, if_neg (by decide)]
    rw [reserveBootData, hmark _ _ (by decide), hmark _ _ (by decide), hmods, hmark _ _ (by decide)]
  rw [pmmInit, if_neg (by decide), htop]
  simp only [Option.bind_eq_bind, Option.bind_some]
  rw [hreserved]
  have hstart : infoMmapAddr (overlay highFull highBoot.mem) highBoot.mbInfo = 0x9100 := by decide
  rw [hstart, hwalk, Option.bind_some, hreserve]

theorem highBoot_alloc : pmmAllocPage (releasePage highFull 0x100000) =
    (0, countTaken (bitmapSetBit (releasePage highFull 0x100000) 0x100000) 1) := by
  have hindexed : Indexed (releasePage highFull 0x100000) := by
    intro b hb
    rw [(highFull_free b).mp hb]
    decide
  have hbit : bitmapFindFreeBit (releasePage highFull 0x100000) = 0x100000 := by
    rcases bitmapFindFreeBit_spec hindexed with ⟨-, hnone⟩ | ⟨hfree, -⟩
    · exact absurd ((highFull_free _).mpr rfl) (hnone 0x100000)
    · exact (highFull_free _).mp hfree
  have hcount : (releasePage highFull 0x100000).freePages ≠ 0 := by decide
  have hzero : wrap (0x100000 * 4096) = 0 := by decide
  rw [pmmAllocPage, if_neg hcount]
  dsimp only
  rw [hbit, if_neg (by decide), hzero]

theorem not_exact_of_zero {p q : BitmapAllocator} (halloc : pmmAllocPage p = (0, q)) {b : Nat}
    (hb : Free p b) (hmarked : ¬ Free q b) : ¬ Exact ⟨p, ∅⟩ .allocPage := by
  have hexec : (⟨p, ∅⟩ : Owned).exec .allocPage = (0, ⟨q, ∅⟩) := by
    simp only [Owned.exec, PmmOp.exec, halloc, blockPages, if_true, PmmOp.freed, Finset.union_empty,
      Finset.sdiff_empty]
  rw [Exact, hexec]
  rintro (⟨-, hsame⟩ | ⟨first, hzero, hpos, -⟩)
  · have hsame' : q = p := hsame
    exact hmarked (hsame' ▸ hb)
  · have hzero' : 0 = first * 4096 := hzero
    omega

/-- The first allocation takes the page, and the caller sees a failure. -/
theorem high_page_returned_as_zero :
    ¬ ∀ (fuel : Nat) (boot : Boot) (p : BitmapAllocator), pmmInit fuel boot = some (.ok, p) →
      ∀ s, Transition.Run WordStep ⟨p, ∅⟩ s → ∀ op : PmmOp, op.IsAlloc → op.Word → Exact s op := by
  intro h
  have hfree : Free (releasePage highFull 0x100000) 0x100000 := (highFull_free _).mpr rfl
  have hmarked : ¬ Free (countTaken (bitmapSetBit (releasePage highFull 0x100000) 0x100000) 1) 0x100000 := by
    intro hb
    have hclear : bitAt (bitmapSetBit (releasePage highFull 0x100000) 0x100000) 0x100000 = false := hb.2
    rw [bitAt_setBit hfree.1] at hclear
    simp at hclear
  exact not_exact_of_zero highBoot_alloc hfree hmarked
    (h 2 highBoot _ highBoot_init _ (Transition.Run.refl _) .allocPage trivial trivial)

end Frostix.Pmm
