import Frostix.Pmm.HighMemory

/-!
First fit on any bitmap. `pmm_alloc_pages` takes the lowest run of clear bits, `pmm_alloc_page`
does the same for one page, and a free of the run restores everything, as long as the indices,
the address and the used counter are words. Beyond that the two searches part: the one for a
single bit looks at the bytes themselves, the one for a run tests an index that has wrapped. -/
namespace Frostix.Pmm
open Machine32 RunSearch

/-- `q` is `p` with the bits of `[start, start + count)` set and counted. -/
structure Marks (p q : BitmapAllocator) (start count : Nat) : Prop where
  bits : ∀ c, bitAt q c = (bitAt p c || decide (start ≤ c ∧ c < start + count))
  array_eq : q.bitsAddr = p.bitsAddr ∧ q.size = p.size
  total_eq : q.totalPages = p.totalPages
  free_eq : q.freePages + count = p.freePages
  used_eq : q.usedPages = p.usedPages + count

/-- What an allocation of `count` pages is to do: it returns 0 exactly without a run of clear bits
and then changes nothing, it takes the lowest run otherwise, freeing that run restores the state,
and for a single page there is only one answer. -/
structure FirstFit (p : BitmapAllocator) (count : Nat) : Prop where
  null_iff : (pmmAllocPages p count).1 = 0 ↔ ∀ s, ¬ IsRun (Free p) count s
  unchanged : (∀ s, ¬ IsRun (Free p) count s) → (pmmAllocPages p count).2 = p
  takes : ∀ s, LowestRun (Free p) count (p.size * 8) s →
    (pmmAllocPages p count).1 = s * 4096 ∧ Marks p (pmmAllocPages p count).2 s count
  restores : ∀ s, LowestRun (Free p) count (p.size * 8) s →
    pmmFreePages (pmmAllocPages p count).2 (pmmAllocPages p count).1 count = p
  single : pmmAllocPage p = pmmAllocPages p 1

/-- The lowest run has a 32-bit address, its end a 32-bit index, and `used_pages` can count it. -/
def RunFitsWords (p : BitmapAllocator) (count : Nat) : Prop :=
  ∀ s, LowestRun (Free p) count (p.size * 8) s →
    s < 2 ^ 20 ∧ s + count ≤ 2 ^ 32 ∧ p.usedPages + count < 2 ^ 32

/-- The lowest clear bit has a 32-bit index, or one that reads as `(u32)-1`. -/
def PageFitsWord (p : BitmapAllocator) : Prop :=
  ∀ b, Free p b → (∀ c < b, ¬ Free p c) → b < 2 ^ 32 ∨ wrap b = noBit

section Runs
variable {p : BitmapAllocator} {count s : Nat}

/-- A run of clear bits is counted in `free_pages`. -/
theorem card_ge_of_run (hcard : p.freePages = (freeSet p).card) (hrun : IsRun (Free p) count s) :
    count ≤ p.freePages := by
  have hsub : Finset.Ico s (s + count) ⊆ freeSet p := by
    intro b hb
    obtain ⟨hlo, hhi⟩ := Finset.mem_Ico.mp hb
    have hfree := hrun (b - s) (by omega)
    rw [show s + (b - s) = b by omega] at hfree
    exact mem_freeSet.mpr hfree
  have hle := Finset.card_le_card hsub
  rwa [Nat.card_Ico, Nat.add_sub_cancel_left, ← hcard] at hle

theorem exists_lowestRun (hpos : 0 < count) (hrun : IsRun (Free p) count s) :
    ∃ t, LowestRun (Free p) count (p.size * 8) t := by
  classical
  have hex : ∃ t, IsRun (Free p) count t := ⟨s, hrun⟩
  have hlast := (Nat.find_spec hex (count - 1) (by omega)).1
  exact ⟨Nat.find hex, Nat.find_spec hex, by omega, fun t ht => Nat.find_min hex ht⟩

theorem not_free_zero (hzero : bitmapTestBit p 0 = true) : ¬ Free p 0 := (testBit_iff.mp hzero).2

/-- With bit 0 set no run that is read goes around the end of the indices, so it is a run of clear
bits at its index in 32 bits. -/
theorem isRun_of_read (hzero : bitmapTestBit p 0 = true) (hrun : IsRun (ReadFree p) count s) :
    IsRun (Free p) count (wrap s) := by
  have hstep : ∀ i < count, wrap (s + i) = wrap s + i := by
    intro i hi
    by_contra hne
    have hback := (hrun (2 ^ 32 - wrap s) (by unfold wrap at *; omega)).2
    rw [show wrap (s + (2 ^ 32 - wrap s)) = 0 by unfold wrap; omega] at hback
    exact not_free_zero hzero hback
  intro i hi
  have hfree := (hrun i hi).2
  rwa [hstep i hi] at hfree

/-- Below index `2^32` a run of clear bits is one that is read. -/
theorem isRun_read_iff (hs : s + count ≤ 2 ^ 32) : IsRun (ReadFree p) count s ↔ IsRun (Free p) count s :=
  forall₂_congr fun _ _ => readFree_iff (by omega)

theorem bitmapFindFreeBits_none (hzero : bitmapTestBit p 0 = true) (hcount : count < 2 ^ 32) (hpos : 0 < count)
    (hno : ∀ s, ¬ IsRun (Free p) count s) : bitmapFindFreeBits p count = noBit := by
  rcases bitmapFindFreeBits_read hcount hpos with ⟨hnone, -⟩ | ⟨s, hlow, -⟩
  · exact hnone
  · exact absurd (isRun_of_read hzero hlow.run) (hno _)

theorem bitmapFindFreeBits_lowest (hcount : count < 2 ^ 32) (hpos : 0 < count)
    (hlow : LowestRun (Free p) count (p.size * 8) s) (hs : s + count ≤ 2 ^ 32) :
    bitmapFindFreeBits p count = s := by
  have hread := (isRun_read_iff hs).mpr hlow.run
  rcases bitmapFindFreeBits_read hcount hpos with ⟨-, hno⟩ | ⟨t, hlow', hstart⟩
  · exact absurd hread (hno s hlow.fits)
  · have hts : t = s := by
      rcases Nat.lt_trichotomy t s with hlt | heq | hgt
      · exact absurd ((isRun_read_iff (by omega)).mp hlow'.run) (hlow.lowest t hlt)
      · exact heq
      · exact absurd hread (hlow'.lowest s hgt)
    rw [hstart, hts]
    unfold wsub wrap
    omega

theorem pmmAllocPages_none (hzero : bitmapTestBit p 0 = true) (hcount : count < 2 ^ 32) (hpos : 0 < count)
    (hno : ∀ s, ¬ IsRun (Free p) count s) : pmmAllocPages p count = (0, p) := by
  rw [pmmAllocPages]
  split_ifs
  · rfl
  · rw [bitmapFindFreeBits_none hzero hcount hpos hno]
    rfl

theorem pmmAllocPages_lowest (hcard : p.freePages = (freeSet p).card) (hcount : count < 2 ^ 32) (hpos : 0 < count)
    (hlow : LowestRun (Free p) count (p.size * 8) s) (hs : s + count ≤ 2 ^ 32) (hsmall : s < 2 ^ 20) :
    pmmAllocPages p count = (s * 4096, countTaken (setRun p s count) count) := by
  have hle := card_ge_of_run hcard hlow.run
  rw [pmmAllocPages, if_neg (by omega), bitmapFindFreeBits_lowest hcount hpos hlow hs]
  dsimp only
  rw [if_neg (by unfold noBit; omega), wrap_of_lt (by omega)]

theorem pmmAllocPages_word (p : BitmapAllocator) (count : Nat) : (pmmAllocPages p count).1 < 2 ^ 32 := by
  rw [pmmAllocPages]
  split_ifs
  · exact Nat.two_pow_pos 32
  · dsimp only
    split_ifs
    · exact Nat.two_pow_pos 32
    · exact wrap_lt _

/-- No index from `2^32` on is ever written. -/
theorem bitAt_setRun_high (p : BitmapAllocator) (start count : Nat) {c : Nat} (hc : 2 ^ 32 ≤ c) :
    bitAt (setRun p start count) c = bitAt p c := by
  refine Loop.foldl_range (fun _ q => bitAt q c = bitAt p c) rfl ?_
  intro i _ q hq
  have hlt := wrap_lt (start + i)
  by_cases hin : wrap (start + i) < q.size * 8
  · rw [bitAt_setBit hin, hq, decide_eq_false (by omega), Bool.false_or]
  · rw [bitmapSetBit, if_pos (by omega), hq]

theorem bitAt_pmmAllocPages_high (p : BitmapAllocator) (count : Nat) {c : Nat} (hc : 2 ^ 32 ≤ c) :
    bitAt (pmmAllocPages p count).2 c = bitAt p c := by
  rw [pmmAllocPages]
  split_ifs
  · rfl
  · dsimp only
    split_ifs
    · rfl
    · exact bitAt_setRun_high p _ count hc

end Runs

section Restore
variable {p q : BitmapAllocator} {count s : Nat}

theorem setRun_bitsAddr (p : BitmapAllocator) (start count : Nat) :
    (setRun p start count).bitsAddr = p.bitsAddr :=
  Loop.foldl_range (fun _ (q : BitmapAllocator) => q.bitsAddr = p.bitsAddr) rfl
    fun _ _ _ hq => (bitmapSetBit_bitsAddr _ _).trans hq

theorem marks_setRun (hs : s + count ≤ 2 ^ 32) (hin : s + count ≤ p.size * 8) (hle : count ≤ p.freePages)
    (hused : p.usedPages + count < 2 ^ 32) : Marks p (countTaken (setRun p s count) count) s count := by
  obtain ⟨hbits, hsize, htotal, hfree, hused'⟩ := @setRun_spec p s count hs hin
  refine ⟨hbits, ⟨setRun_bitsAddr p s count, hsize⟩, htotal, ?_, ?_⟩
  · change (setRun p s count).freePages - count + count = p.freePages
    rw [hfree]
    omega
  · change wrap ((setRun p s count).usedPages + count) = p.usedPages + count
    rw [hused', wrap_of_lt hused]

theorem bits_ext (h : ∀ c, bitAt p c = bitAt q c) : p.bits = q.bits := by
  funext byte
  apply BitVec.eq_of_getLsbD_eq
  intro j hj
  have hbit := h (byte * 8 + j)
  unfold bitAt at hbit
  rwa [show (byte * 8 + j) / 8 = byte by omega, show (byte * 8 + j) % 8 = j by omega] at hbit

theorem releasePage_marked {b : Nat} (hset : bitmapTestBit q b = true) (hword : q.freePages + 1 < 2 ^ 32)
    (hused : 0 < q.usedPages) :
    (∀ c, bitAt (releasePage q b) c = (!decide (c = b) && bitAt q c)) ∧
      (releasePage q b).bitsAddr = q.bitsAddr ∧ (releasePage q b).size = q.size ∧
      (releasePage q b).totalPages = q.totalPages ∧ (releasePage q b).freePages = q.freePages + 1 ∧
      (releasePage q b).usedPages + 1 = q.usedPages := by
  have hin := (testBit_iff.mp hset).1
  rw [releasePage, if_pos hset]
  refine ⟨fun c => bitAt_clearBit hin c, bitmapClearBit_bitsAddr q b, bitmapClearBit_size q b,
    bitmapClearBit_totalPages q b, ?_, ?_⟩
  · change wrap ((bitmapClearBit q b).freePages + 1) = q.freePages + 1
    rw [bitmapClearBit_freePages, wrap_of_lt hword]
  · simp only [bitmapClearBit_usedPages, if_pos hused]
    omega

/-- Freeing what was marked gives the old state back, bit by bit and counter by counter. -/
theorem Marks.restore (h : Marks p q s count) (hrun : IsRun (Free p) count s) (hpos : 0 < s) (hcount : 0 < count)
    (hs : s + count ≤ 2 ^ 32) (hword : p.freePages < 2 ^ 32) : pmmFreePages q (s * 4096) count = p := by
  rw [pmmFreePages, if_neg (by omega), Nat.mul_div_cancel _ (by decide)]
  have hloop := @Loop.foldl_range _ (fun r i => releasePage r (wrap (s + i))) count q (fun n r =>
    (∀ c, bitAt r c = (bitAt p c || decide (s + n ≤ c ∧ c < s + count))) ∧ r.bitsAddr = p.bitsAddr ∧
      r.size = p.size ∧ r.totalPages = p.totalPages ∧ r.freePages + count = p.freePages + n ∧
      r.usedPages + n = p.usedPages + count)
    ⟨h.bits, h.array_eq.1, h.array_eq.2, h.total_eq, h.free_eq, h.used_eq⟩ (by
      rintro i hi r ⟨hbits, haddr, hsize, htotal, hfree, hused⟩
      rw [wrap_of_lt (by omega)]
      have hset : bitmapTestBit r (s + i) = true := by
        rw [bitmapTestBit_eq, hsize, hbits, decide_eq_true (hrun i hi).1, decide_eq_true (by omega)]
        simp
      obtain ⟨hbits', haddr', hsize', htotal', hfree', hused'⟩ :=
        releasePage_marked hset (by omega) (by omega)
      refine ⟨fun c => ?_, haddr'.trans haddr, hsize'.trans hsize, htotal'.trans htotal, by omega, by omega⟩
      rw [hbits', hbits]
      by_cases hc : c = s + i
      · rw [hc, (hrun i hi).2]
        simp
      · simp only [hc, decide_false, Bool.not_false, Bool.true_and]
        congr 1
        exact decide_eq_decide.mpr (by omega))
  generalize (List.range count).foldl (fun r i => releasePage r (wrap (s + i))) q = r at hloop
  obtain ⟨hbits, haddr, hsize, htotal, hfree, hused⟩ := hloop
  have hbits' : r.bits = p.bits := by
    refine bits_ext fun c => ?_
    rw [hbits, decide_eq_false (by omega), Bool.or_false]
  obtain ⟨addr, bits, size, total, free, used⟩ := p
  obtain ⟨addr', bits', size', total', free', used'⟩ := r
  simp only at haddr hsize htotal hfree hused hbits'
  simp only [haddr, hsize, htotal, hbits', BitmapAllocator.mk.injEq, true_and]
  omega

end Restore

section Exact
variable {p : BitmapAllocator} {count : Nat}

theorem pmmAllocPage_eq (hzero : bitmapTestBit p 0 = true) (hcard : p.freePages = (freeSet p).card)
    (hpage : PageFitsWord p) : pmmAllocPage p = pmmAllocPages p 1 := by
  have hone : ∀ b, IsRun (Free p) 1 b ↔ Free p b := by
    intro b
    refine ⟨fun hrun => hrun 0 one_pos, fun hb i hi => ?_⟩
    rwa [Nat.lt_one_iff.mp hi]
  rw [pmmAllocPage, pmmAllocPages]
  by_cases hnone : p.freePages = 0
  · rw [if_pos hnone, if_pos (show p.freePages < 1 by omega)]
  rw [if_neg hnone, if_neg (show ¬ p.freePages < 1 by omega)]
  dsimp only
  rcases bitmapFindFreeBit_wrap p with ⟨hbit, hno⟩ | ⟨b, hfree, hlow, hbit⟩
  · rw [hbit, bitmapFindFreeBits_none hzero (by decide) one_pos fun s hrun => hno s ((hone s).mp hrun)]
    rfl
  rw [hbit]
  rcases Nat.lt_or_ge b (2 ^ 32) with hlt | hge
  · have hrun : LowestRun (Free p) 1 (p.size * 8) b :=
      ⟨(hone b).mpr hfree, hfree.1, fun c hc hrun => hlow c hc ((hone c).mp hrun)⟩
    rw [bitmapFindFreeBits_lowest (by decide) one_pos hrun hlt, wrap_of_lt hlt]
    have hset : setRun p b 1 = bitmapSetBit p b := by
      rw [setRun, List.range_one, List.foldl_cons, List.foldl_nil, Nat.add_zero, wrap_of_lt hlt]
    rw [hset]
  · -- the bits below are all set, so the run search reads none that is clear
    have hread : bitmapFindFreeBits p 1 = noBit := by
      rcases @bitmapFindFreeBits_read p 1 (by decide) one_pos with ⟨hread, -⟩ | ⟨s, hrun, -⟩
      · exact hread
      · have hs := (hrun.run 0 one_pos).2
        exact absurd hs (hlow _ (lt_of_lt_of_le (wrap_lt _) hge))
    rw [hread, (hpage b hfree hlow).resolve_left (by omega)]
    rfl

/-- With words large enough both allocations are first fit. -/
theorem FirstFit.of_fits (hzero : bitmapTestBit p 0 = true) (hcard : p.freePages = (freeSet p).card)
    (hword : p.freePages < 2 ^ 32) (hpos : 0 < count) (hcount : count < 2 ^ 32) (hrun : RunFitsWords p count)
    (hpage : PageFitsWord p) : FirstFit p count := by
  have hstart : ∀ s, LowestRun (Free p) count (p.size * 8) s → 0 < s := by
    intro s hlow
    refine Nat.pos_of_ne_zero fun hs => not_free_zero hzero ?_
    have hfirst := hlow.run 0 hpos
    rwa [hs] at hfirst
  have hmarks : ∀ s, LowestRun (Free p) count (p.size * 8) s →
      ∃ q, pmmAllocPages p count = (s * 4096, q) ∧ Marks p q s count := by
    intro s hlow
    obtain ⟨hsmall, hend, hused⟩ := hrun s hlow
    exact ⟨_, pmmAllocPages_lowest hcard hcount hpos hlow hend hsmall,
      marks_setRun hend hlow.fits (card_ge_of_run hcard hlow.run) hused⟩
  refine ⟨⟨?_, fun hno => ?_⟩, fun hno => ?_, fun s hlow => ?_, fun s hlow => ?_,
    pmmAllocPage_eq hzero hcard hpage⟩
  · intro hnull s hs
    obtain ⟨t, hlow⟩ := exists_lowestRun hpos hs
    obtain ⟨q, halloc, -⟩ := hmarks t hlow
    have ht := hstart t hlow
    rw [halloc] at hnull
    dsimp only at hnull
    omega
  · rw [pmmAllocPages_none hzero hcount hpos hno]
  · rw [pmmAllocPages_none hzero hcount hpos hno]
  · obtain ⟨q, halloc, hm⟩ := hmarks s hlow
    rw [halloc]
    exact ⟨rfl, hm⟩
  · obtain ⟨q, halloc, hm⟩ := hmarks s hlow
    rw [halloc]
    exact hm.restore hlow.run (hstart s hlow) hpos (hrun s hlow).2.1 hword

/-- A run that starts above 4 GiB has no address, one that ends above index `2^32` no indices. -/
theorem FirstFit.runFitsWords (h : FirstFit p count) (hcard : p.freePages = (freeSet p).card) (hpos : 0 < count)
    (hcount : count < 2 ^ 32) : RunFitsWords p count := by
  intro s hlow
  obtain ⟨haddr, hm⟩ := h.takes s hlow
  have hword := pmmAllocPages_word p count
  have hsmall : s < 2 ^ 20 := by omega
  have hend : s + count ≤ 2 ^ 32 := by
    by_contra hbig
    have hlast := hm.bits (s + count - 1)
    rw [bitAt_pmmAllocPages_high p count (by omega), decide_eq_true (by omega), Bool.or_true] at hlast
    have hclear := (hlow.run (count - 1) (by omega)).2
    rw [show s + (count - 1) = s + count - 1 by omega, hlast] at hclear
    cases hclear
  refine ⟨hsmall, hend, ?_⟩
  have hused := hm.used_eq
  rw [pmmAllocPages_lowest hcard hcount hpos hlow hend hsmall] at hused
  rw [← hused]
  exact wrap_lt _

/-- A lowest clear bit from `2^32` on is taken by one function and not seen by the other. -/
theorem FirstFit.pageFitsWord (h : FirstFit p count) (hcard : p.freePages = (freeSet p).card) :
    PageFitsWord p := by
  intro b hfree hlow
  by_contra hnot
  rw [not_or, not_lt] at hnot
  have hsingle := h.single
  have hcounted : p.freePages ≠ 0 := by
    rw [hcard]
    exact Finset.card_ne_zero_of_mem (mem_freeSet.mpr hfree)
  have hbit : bitmapFindFreeBit p = wrap b := by
    rcases bitmapFindFreeBit_wrap p with ⟨-, hno⟩ | ⟨c, hfree', hlow', hbit⟩
    · exact absurd hfree (hno b)
    · obtain rfl : c = b := by
        rcases Nat.lt_trichotomy c b with hlt | heq | hgt
        · exact absurd hfree' (hlow c hlt)
        · exact heq
        · exact absurd hfree (hlow' b hgt)
      exact hbit
  have hread : bitmapFindFreeBits p 1 = noBit := by
    rcases @bitmapFindFreeBits_read p 1 (by decide) one_pos with ⟨hread, -⟩ | ⟨s, hrun, -⟩
    · exact hread
    · have hs := (hrun.run 0 one_pos).2
      exact absurd hs (hlow _ (lt_of_lt_of_le (wrap_lt _) hnot.1))
  have hpages : pmmAllocPages p 1 = (0, p) := by
    rw [pmmAllocPages, if_neg (by omega), hread]
    rfl
  rw [hpages, pmmAllocPage, if_neg hcounted, hbit] at hsingle
  dsimp only at hsingle
  rw [if_neg hnot.2] at hsingle
  have hcounter := congrArg (fun r => r.2.freePages) hsingle
  have hless : (bitmapSetBit p (wrap b)).freePages - 1 = p.freePages := hcounter
  rw [bitmapSetBit_freePages] at hless
  omega

/-- Both allocations are first fit exactly if the lowest run and the lowest page fit in words. -/
theorem first_fit_iff (hzero : bitmapTestBit p 0 = true) (hcard : p.freePages = (freeSet p).card)
    (hword : p.freePages < 2 ^ 32) (hpos : 0 < count) (hcount : count < 2 ^ 32) :
    FirstFit p count ↔ RunFitsWords p count ∧ PageFitsWord p :=
  ⟨fun h => ⟨h.runFitsWords hcard hpos hcount, h.pageFitsWord hcard⟩,
    fun h => .of_fits hzero hcard hword hpos hcount h.1 h.2⟩

end Exact

/-- With the first page above 4 GiB as the only free one, `pmm_alloc_pages(1)` marks it and
returns 0. -/
theorem high_page_not_first_fit :
    bitmapTestBit (releasePage highFull 0x100000) 0 = true ∧
      (releasePage highFull 0x100000).freePages = (freeSet (releasePage highFull 0x100000)).card ∧
      ¬ FirstFit (releasePage highFull 0x100000) 1 := by
  have hset : freeSet (releasePage highFull 0x100000) = {0x100000} := by
    ext b
    rw [mem_freeSet, Finset.mem_singleton]
    exact highFull_free b
  have hcard : (releasePage highFull 0x100000).freePages = (freeSet (releasePage highFull 0x100000)).card := by
    rw [hset, Finset.card_singleton]
    decide
  refine ⟨by decide, hcard, fun hfit => ?_⟩
  have hfree : ∀ b, Free (releasePage highFull 0x100000) b ↔ b = 0x100000 := highFull_free
  have hlow : LowestRun (Free (releasePage highFull 0x100000)) 1 ((releasePage highFull 0x100000).size * 8)
      0x100000 := by
    refine ⟨fun i hi => ?_, ?_, fun s hs hrun => ?_⟩
    · rw [Nat.lt_one_iff.mp hi]
      exact (hfree _).mpr rfl
    · exact ((hfree 0x100000).mpr rfl).1
    · have heq := (hfree _).mp (hrun 0 one_pos)
      omega
  have hsmall := (hfit.runFitsWords hcard one_pos (by decide) 0x100000 hlow).1
  exact absurd hsmall (by decide)

def sixFree : BitmapAllocator := ⟨0x110000, fun _ => 3#8, 1, 8, 6, 2⟩

theorem first_fit_six : FirstFit sixFree 2 ↔ RunFitsWords sixFree 2 ∧ PageFitsWord sixFree :=
  first_fit_iff (by decide) (by decide) (by decide) (by decide) (by decide)

end Frostix.Pmm
