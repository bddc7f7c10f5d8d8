import Frostix.Pmm.Search

/-!
The allocator invariant and one specification lemma for each operation. After
this module no proof unfolds the search loops or the bit operations. -/
namespace Frostix.Pmm
open Machine32 RunSearch

def freeSet (p : BitmapAllocator) : Finset Nat :=
  (Finset.range (p.size * 8)).filter fun b => bitAt p b = false

@[simp] theorem mem_freeSet {p : BitmapAllocator} {b : Nat} : b ∈ freeSet p ↔ Free p b := by
  simp [freeSet, Free]

/-- Bit 0 and the padding bits are set and both counters describe the bitmap. -/
structure WellFormed (p : BitmapAllocator) : Prop where
  total_le : p.totalPages ≤ 2 ^ 20
  covers : p.totalPages ≤ p.size * 8
  zero_set : bitmapTestBit p 0 = true
  tail_set : ∀ b, p.totalPages ≤ b → b < p.size * 8 → bitAt p b = true
  free_count : p.freePages = (freeSet p).card
  used_eq : p.usedPages = p.totalPages - p.freePages

theorem WellFormed.zero_not_free {p : BitmapAllocator} (h : WellFormed p) : ¬ Free p 0 := by
  intro hfree
  have hset := h.zero_set
  rw [bitmapTestBit_eq, hfree.2] at hset
  simp at hset

theorem WellFormed.free_bounds {p : BitmapAllocator} (h : WellFormed p) {b : Nat}
    (hb : Free p b) : 0 < b ∧ b < p.totalPages := by
  constructor
  · rcases Nat.eq_zero_or_pos b with rfl | hpos
    · exact absurd hb h.zero_not_free
    · exact hpos
  · by_contra hge
    have hset := h.tail_set b (by omega) hb.1
    rw [hb.2] at hset
    cases hset

theorem WellFormed.addressable {p : BitmapAllocator} (h : WellFormed p) : Addressable p := by
  intro b hb
  exact lt_of_lt_of_le (h.free_bounds hb).2 h.total_le

theorem WellFormed.freePages_le {p : BitmapAllocator} (h : WellFormed p) :
    p.freePages ≤ p.totalPages := by
  have hsub : freeSet p ⊆ Finset.range p.totalPages := by
    intro b hb
    exact Finset.mem_range.mpr (h.free_bounds (mem_freeSet.mp hb)).2
  have hcard := Finset.card_le_card hsub
  rw [Finset.card_range, ← h.free_count] at hcard
  exact hcard

/-- `q` is `p` with the free pages `[start, start + count)` taken. -/
structure Taken (p q : BitmapAllocator) (start count : Nat) : Prop where
  pos : 0 < start
  fits : start + count ≤ p.totalPages
  was_free : ∀ i < count, Free p (start + i)
  free_iff : ∀ b, Free q b ↔ Free p b ∧ ¬ (start ≤ b ∧ b < start + count)
  size_eq : q.size = p.size
  total_eq : q.totalPages = p.totalPages
  freePages_eq : q.freePages + count = p.freePages

/-- `q` is `p` with page `bit` free. -/
structure Released (p q : BitmapAllocator) (bit : Nat) : Prop where
  free_iff : ∀ b, Free q b ↔ Free p b ∨ b = bit
  size_eq : q.size = p.size
  total_eq : q.totalPages = p.totalPages

theorem testBit_iff {p : BitmapAllocator} {b : Nat} :
    bitmapTestBit p b = true ↔ b < p.size * 8 ∧ ¬ Free p b := by
  simp only [bitmapTestBit_eq, Free, Bool.and_eq_true, decide_eq_true_eq, not_and, Bool.not_eq_false]
  exact and_congr_right fun hb => ⟨fun h _ => h, fun h => h hb⟩

theorem Taken.testBit {p q : BitmapAllocator} {start count b : Nat} (h : Taken p q start count)
    (hb : bitmapTestBit p b = true) : bitmapTestBit q b = true := by
  rw [testBit_iff] at hb ⊢
  rw [h.size_eq, h.free_iff]
  exact ⟨hb.1, fun hfree => hb.2 hfree.1⟩

theorem Taken.testBit_new {p q : BitmapAllocator} {start count i : Nat}
    (h : Taken p q start count) (hi : i < count) : bitmapTestBit q (start + i) = true := by
  rw [testBit_iff, h.size_eq, h.free_iff]
  exact ⟨(h.was_free i hi).1, fun hfree => hfree.2 ⟨by omega, by omega⟩⟩

/-- Both allocation functions mark a free run and move `count` pages between the
counters; the invariant follows from the new free set alone. -/
theorem WellFormed.take {p q : BitmapAllocator} {start count : Nat} (h : WellFormed p)
    (hrun : IsRun (Free p) count start) (hpos : 0 < count)
    (hbits : ∀ c, bitAt q c = (bitAt p c || decide (start ≤ c ∧ c < start + count)))
    (hsize : q.size = p.size) (htotal : q.totalPages = p.totalPages)
    (hfree : q.freePages = p.freePages - count)
    (hused : q.usedPages = wrap (p.usedPages + count)) :
    Taken p q start count ∧ WellFormed q := by
  have hiff : ∀ b, Free q b ↔ Free p b ∧ ¬ (start ≤ b ∧ b < start + count) := by
    intro b
    simp only [Free, hsize, hbits, Bool.or_eq_false_iff, decide_eq_false_iff_not, and_assoc]
  have hset : freeSet q = freeSet p \ Finset.Ico start (start + count) := by
    ext b
    simp only [mem_freeSet, Finset.mem_sdiff, Finset.mem_Ico, hiff]
  have hsub : Finset.Ico start (start + count) ⊆ freeSet p := by
    intro b hb
    obtain ⟨hlo, hhi⟩ := Finset.mem_Ico.mp hb
    have hfree := hrun (b - start) (by omega)
    rw [show start + (b - start) = b by omega] at hfree
    exact mem_freeSet.mpr hfree
  have hcard : (freeSet q).card = (freeSet p).card - count := by
    rw [hset, Finset.card_sdiff_of_subset hsub, Nat.card_Ico, Nat.add_sub_cancel_left]
  have hle : count ≤ p.freePages := by
    have := Finset.card_le_card hsub
    rw [Nat.card_Ico, Nat.add_sub_cancel_left, ← h.free_count] at this
    exact this
  have hfirst := h.free_bounds (hrun 0 hpos)
  have hlast := h.free_bounds (hrun (count - 1) (by omega))
  have hfp := h.freePages_le
  have hup := h.used_eq
  have htl := h.total_le
  refine ⟨⟨by omega, by omega, hrun, hiff, hsize, htotal, by omega⟩, ?_⟩
  refine ⟨by omega, by rw [htotal, hsize]; exact h.covers, ?_, ?_, ?_, ?_⟩
  · have hzero := h.zero_set
    rw [bitmapTestBit_eq] at hzero ⊢
    rw [hsize, hbits]
    simp only [Bool.and_eq_true] at hzero ⊢
    exact ⟨hzero.1, by rw [hzero.2]; rfl⟩
  · intro b hb hbs
    rw [hbits, h.tail_set b (by omega) (by omega)]
    rfl
  · rw [hfree, hcard, h.free_count]
  · rw [hused, hfree, wrap_of_lt (by omega), htotal]
    omega

theorem setRun_spec {p : BitmapAllocator} {start count : Nat} (hsmall : start + count ≤ 2 ^ 32)
    (hin : start + count ≤ p.size * 8) :
    let q := setRun p start count
    (∀ c, bitAt q c = (bitAt p c || decide (start ≤ c ∧ c < start + count))) ∧
      q.size = p.size ∧ q.totalPages = p.totalPages ∧ q.freePages = p.freePages ∧
      q.usedPages = p.usedPages := by
  apply Loop.foldl_range (fun n (q : BitmapAllocator) =>
    (∀ c, bitAt q c = (bitAt p c || decide (start ≤ c ∧ c < start + n))) ∧
      q.size = p.size ∧ q.totalPages = p.totalPages ∧ q.freePages = p.freePages ∧
      q.usedPages = p.usedPages)
  · refine ⟨?_, rfl, rfl, rfl, rfl⟩
    intro c
    simp
  · rintro i hi q ⟨hbits, hsize, htotal, hfree, hused⟩
    rw [wrap_of_lt (by omega : start + i < 2 ^ 32)]
    refine ⟨?_, by simpa using hsize, by simpa using htotal, by simpa using hfree,
      by simpa using hused⟩
    intro c
    rw [bitAt_setBit (by omega), hbits]
    have hsplit : (start ≤ c ∧ c < start + (i + 1)) ↔ (c = start + i ∨ start ≤ c ∧ c < start + i) := by
      omega
    simp only [hsplit, Bool.decide_or]
    cases bitAt p c <;> simp

/-- `pmm_alloc_page`: either there is no free page and nothing changes, or the
lowest free page is taken and its address returned. -/
theorem pmmAllocPage_spec {p : BitmapAllocator} (h : WellFormed p) :
    (pmmAllocPage p = (0, p) ∧ ∀ b, ¬ Free p b) ∨
      ∃ b q, pmmAllocPage p = (b * 4096, q) ∧ Taken p q b 1 ∧ WellFormed q := by
  unfold pmmAllocPage
  by_cases hzero : p.freePages = 0
  · refine Or.inl ⟨if_pos hzero, ?_⟩
    intro b hb
    rw [h.free_count, Finset.card_eq_zero] at hzero
    exact absurd (mem_freeSet.mpr hb) (by simp [hzero])
  · rw [if_neg hzero]
    rcases bitmapFindFreeBit_spec h.addressable.indexed with ⟨hnone, hno⟩ | ⟨hfree, _⟩
    · exact Or.inl ⟨if_pos hnone, hno⟩
    · have hlt := h.addressable _ hfree
      have hne : bitmapFindFreeBit p ≠ noBit := by
        unfold noBit
        omega
      right
      refine ⟨bitmapFindFreeBit p, countTaken (bitmapSetBit p (bitmapFindFreeBit p)) 1, ?_, ?_⟩
      · dsimp only
        rw [if_neg hne, wrap_of_lt (by omega)]
      · apply h.take (fun i hi => by simpa [Nat.lt_one_iff.mp hi] using hfree) (by decide)
        · intro c
          have hiff : (bitmapFindFreeBit p ≤ c ∧ c < bitmapFindFreeBit p + 1) ↔
              c = bitmapFindFreeBit p := by omega
          simp only [hiff]
          exact (bitAt_setBit hfree.1 c).trans (Bool.or_comm _ _)
        · exact bitmapSetBit_size _ _
        · exact bitmapSetBit_totalPages _ _
        · exact congrArg (· - 1) (bitmapSetBit_freePages _ _)
        · exact congrArg (fun n => wrap (n + 1)) (bitmapSetBit_usedPages _ _)

theorem bitmapFindFreeBits_zero (p : BitmapAllocator) : bitmapFindFreeBits p 0 = noBit := rfl

/-- `pmm_alloc_pages`: on failure nothing changes, and for a positive count there
is no run of free pages of this length; otherwise the lowest run is taken. -/
theorem pmmAllocPages_spec {p : BitmapAllocator} (h : WellFormed p) (count : Nat) :
    (pmmAllocPages p count = (0, p) ∧
        (0 < count → ∀ s, ¬ IsRun (Free p) count s)) ∨
      ∃ start q, pmmAllocPages p count = (start * 4096, q) ∧ 0 < count ∧
        LowestRun (Free p) count (p.size * 8) start ∧ Taken p q start count ∧ WellFormed q := by
  have htotal := h.total_le
  have hfp := h.freePages_le
  unfold pmmAllocPages
  by_cases hfew : p.freePages < count
  · refine Or.inl ⟨if_pos hfew, ?_⟩
    intro _ s hrun
    have hsub : Finset.Ico s (s + count) ⊆ freeSet p := by
      intro b hb
      obtain ⟨hlo, hhi⟩ := Finset.mem_Ico.mp hb
      have hfree := hrun (b - s) (by omega)
      rw [show s + (b - s) = b by omega] at hfree
      exact mem_freeSet.mpr hfree
    have hcard := Finset.card_le_card hsub
    rw [Nat.card_Ico, Nat.add_sub_cancel_left, ← h.free_count] at hcard
    omega
  · rw [if_neg hfew]
    rcases Nat.eq_zero_or_pos count with rfl | hpos
    · exact Or.inl ⟨if_pos (bitmapFindFreeBits_zero p), fun hlt => absurd hlt (lt_irrefl 0)⟩
    · rcases bitmapFindFreeBits_spec h.addressable.indexed (by omega : count < 2 ^ 32) hpos with
        ⟨hnone, hno⟩ | hlow
      · refine Or.inl ⟨if_pos hnone, ?_⟩
        intro _ s hrun
        refine hno s ?_ hrun
        have hlast := (hrun (count - 1) (by omega)).1
        omega
      · have hfirst := h.free_bounds (hlow.run 0 hpos)
        have hlast := h.free_bounds (hlow.run (count - 1) (by omega))
        have hne : bitmapFindFreeBits p count ≠ noBit := by
          unfold noBit
          omega
        obtain ⟨hbits, hsize, htot, hfree, hused⟩ :=
          @setRun_spec p (bitmapFindFreeBits p count) count
            (by omega) hlow.fits
        right
        refine ⟨bitmapFindFreeBits p count,
          countTaken (setRun p (bitmapFindFreeBits p count) count) count, ?_, hpos, hlow, ?_⟩
        · dsimp only
          rw [if_neg hne, wrap_of_lt (by omega)]
        · apply h.take hlow.run hpos
          · exact hbits
          · exact hsize
          · exact htot
          · exact congrArg (· - count) hfree
          · exact congrArg (fun n => wrap (n + count)) hused

theorem free_clearBit_iff {p : BitmapAllocator} {page : Nat} (hin : page < p.size * 8) (b : Nat) :
    Free (bitmapClearBit p page) b ↔ Free p b ∨ b = page := by
  simp only [Free, bitmapClearBit_size, bitAt_clearBit hin]
  by_cases hb : b = page
  · simp [hb, hin]
  · simp [hb]

/-- A page with a bit in the bitmap is free once it has been released, and releasing it
changes no other page. -/
theorem free_releasePage_iff {p : BitmapAllocator} {page : Nat} (hin : page < p.size * 8) (b : Nat) :
    Free (releasePage p page) b ↔ Free p b ∨ b = page := by
  unfold releasePage
  split
  · exact free_clearBit_iff hin b
  · rename_i hset
    rw [Bool.not_eq_true, bitmapTestBit_false_iff hin] at hset
    exact ⟨Or.inl, fun hb => hb.elim id fun heq => heq ▸ hset⟩

/-- Releasing a managed page other than page 0 makes it free; an already free
page is left alone. -/
theorem releasePage_spec {p : BitmapAllocator} (h : WellFormed p) {bit : Nat} (hpos : 0 < bit)
    (hlt : bit < p.totalPages) : Released p (releasePage p bit) bit ∧ WellFormed (releasePage p bit) := by
  have hcov := h.covers
  have hin : bit < p.size * 8 := by omega
  have hiff := free_releasePage_iff hin
  by_cases hset : bitmapTestBit p bit = true
  · have hsetEq : freeSet (releasePage p bit) = insert bit (freeSet p) := by
      ext b
      simp only [mem_freeSet, hiff, Finset.mem_insert]
      exact or_comm
    have hcard : (freeSet (releasePage p bit)).card = p.freePages + 1 := by
      have hnot : bit ∉ freeSet p := by simpa using (testBit_iff.mp hset).2
      rw [hsetEq, Finset.card_insert_of_notMem hnot, h.free_count]
    -- the counters: at least the released page was counted as used
    have hle : p.freePages + 1 ≤ p.totalPages := by
      have hsub : insert bit (freeSet p) ⊆ Finset.range p.totalPages := by
        intro b hb
        rcases Finset.mem_insert.mp hb with rfl | hmem
        · exact Finset.mem_range.mpr hlt
        · exact Finset.mem_range.mpr (h.free_bounds (mem_freeSet.mp hmem)).2
      have hle := Finset.card_le_card hsub
      rwa [← hsetEq, hcard, Finset.card_range] at hle
    have htl := h.total_le
    have hup := h.used_eq
    rw [releasePage, if_pos hset] at hiff hcard ⊢
    refine ⟨⟨hiff, by simp, by simp⟩, ?_⟩
    refine ⟨by simpa using h.total_le, by simpa using h.covers, ?_, ?_, ?_, ?_⟩
    · rw [testBit_iff, hiff]
      have hzero := testBit_iff.mp h.zero_set
      refine ⟨by simpa using hzero.1, ?_⟩
      rintro (hfree | heq)
      · exact hzero.2 hfree
      · omega
    · intro b hb hbs
      change bitAt (bitmapClearBit p bit) b = true
      rw [bitmapClearBit_size] at hbs
      rw [bitmapClearBit_totalPages] at hb
      have hne : b ≠ bit := by omega
      rw [bitAt_clearBit hin, h.tail_set b hb hbs]
      simp [hne]
    · change wrap ((bitmapClearBit p bit).freePages + 1) = _
      rw [hcard, bitmapClearBit_freePages, wrap_of_lt (by omega)]
    · simp only [bitmapClearBit_usedPages, bitmapClearBit_freePages, bitmapClearBit_totalPages]
      rw [wrap_of_lt (by omega), if_pos (by omega)]
      omega
  · rw [releasePage, if_neg hset] at hiff ⊢
    exact ⟨⟨hiff, rfl, rfl⟩, h⟩

/-- `pmm_free_pages` on managed pages frees exactly those pages. -/
theorem pmmFreePages_spec {p : BitmapAllocator} (h : WellFormed p) {addr count : Nat}
    (hpages : ∀ i < count, 0 < addr / 4096 + i ∧ addr / 4096 + i < p.totalPages) :
    let q := pmmFreePages p addr count
    WellFormed q ∧ (∀ b, Free q b ↔ Free p b ∨ addr / 4096 ≤ b ∧ b < addr / 4096 + count) ∧
      q.size = p.size ∧ q.totalPages = p.totalPages := by
  have htl := h.total_le
  unfold pmmFreePages
  rcases Nat.eq_zero_or_pos count with rfl | hpos
  · simp only [or_true, if_true, and_true]
    refine ⟨h, ?_⟩
    intro b
    exact ⟨Or.inl, fun hb => hb.elim id fun hno => by omega⟩
  · have hfirst := hpages 0 hpos
    have haddr : ¬ (addr = 0 ∨ count = 0) := by
      rintro (rfl | rfl)
      · simp at hfirst
      · exact lt_irrefl 0 hpos
    simp only [if_neg haddr]
    apply Loop.foldl_range (fun n (q : BitmapAllocator) =>
      WellFormed q ∧ (∀ b, Free q b ↔ Free p b ∨ addr / 4096 ≤ b ∧ b < addr / 4096 + n) ∧
        q.size = p.size ∧ q.totalPages = p.totalPages)
    · refine ⟨h, ?_, rfl, rfl⟩
      intro b
      exact ⟨Or.inl, fun hb => hb.elim id fun hno => by omega⟩
    · rintro i hi q ⟨hwf, hfree, hsize, htotal⟩
      have hpg := hpages i hi
      rw [wrap_of_lt (by omega)]
      obtain ⟨hrel, hwf'⟩ := releasePage_spec hwf hpg.1 (by omega)
      refine ⟨hwf', ?_, hrel.size_eq.trans hsize, hrel.total_eq.trans htotal⟩
      intro b
      rw [hrel.free_iff, hfree]
      constructor
      · rintro ((hb | hb) | rfl)
        · exact Or.inl hb
        · exact Or.inr (by omega)
        · exact Or.inr (by omega)
      · rintro (hb | hb)
        · exact Or.inl (Or.inl hb)
        · by_cases heq : b = addr / 4096 + i
          · exact Or.inr heq
          · exact Or.inl (Or.inr (by omega))

end Frostix.Pmm
