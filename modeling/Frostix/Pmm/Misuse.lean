import Frostix.Pmm.Boot

/-!
Calls with arbitrary arguments. `pmm_free_page` checks the address against NULL
but not the page index against 0, and the bitmap against its padded size but not
against `total_pages`; this module says exactly which frees that lets through. -/
namespace Frostix.Pmm
open Machine32

/-- Page 0 and every page from `total_pages` on is marked, and the counters add up. -/
structure Guarded (p : BitmapAllocator) : Prop where
  marked : ∀ b < p.size * 8, b = 0 ∨ p.totalPages ≤ b → bitAt p b = true
  counted : p.freePages + p.usedPages = p.totalPages

def FailureKeeps (p : BitmapAllocator) : Prop :=
  ∀ op : PmmOp, (op = .allocPage ∨ ∃ count, op = .allocPages count) →
    (op.exec p).1 = 0 → (op.exec p).2 = p

/-- A page a free may name: a managed page other than page 0, or one beyond the bitmap. -/
def HarmlessPage (p : BitmapAllocator) (page : Nat) : Prop :=
  (0 < page ∧ page < p.totalPages) ∨ p.size * 8 ≤ page

def PmmOp.Harmless (p : BitmapAllocator) : PmmOp → Prop
  | .allocPage => True
  | .allocPages _ => True
  | .freePage addr => addr = 0 ∨ HarmlessPage p (addr / 4096)
  | .freePages addr count => addr = 0 ∨ ∀ i < count, HarmlessPage p (wrap (addr / 4096 + i))

def AnyStep (p : BitmapAllocator) (op : PmmOp) (q : BitmapAllocator) : Prop := q = (op.exec p).2

def HarmlessStep (p : BitmapAllocator) (op : PmmOp) (q : BitmapAllocator) : Prop :=
  op.Harmless p ∧ q = (op.exec p).2

theorem Ready.guarded {p : BitmapAllocator} (h : Ready p) : Guarded p := by
  rcases h with hwf | hempty
  · constructor
    · rintro b hb (rfl | htail)
      · have hzero := hwf.zero_set
        rw [bitmapTestBit_eq, Bool.and_eq_true] at hzero
        exact hzero.2
      · exact hwf.tail_set b htail hb
    · have := hwf.freePages_le
      have := hwf.used_eq
      omega
  · constructor
    · intro b hb
      rw [hempty.size] at hb
      omega
    · rw [hempty.free, hempty.used, hempty.total]

theorem releasePage_beyond {p : BitmapAllocator} {page : Nat} (h : p.size * 8 ≤ page) :
    releasePage p page = p := by
  rw [releasePage, bitmapTestBit_eq]
  simp [Nat.not_lt.mpr h]

theorem releasePage_harmless {p : BitmapAllocator} (h : Ready p) {page : Nat}
    (hpage : HarmlessPage p page) : Ready (releasePage p page) := by
  rcases hpage with ⟨hpos, hlt⟩ | hbeyond
  · rcases h with hwf | hempty
    · exact Or.inl (releasePage_spec hwf hpos hlt).2
    · rw [hempty.total] at hlt
      omega
  · rwa [releasePage_beyond hbeyond]

theorem harmlessPage_congr {p q : BitmapAllocator} (h : SameArea p q) (page : Nat) :
    HarmlessPage q page ↔ HarmlessPage p page := by
  unfold HarmlessPage
  rw [h.total, h.size]

theorem Empty.allocPage {p : BitmapAllocator} (h : Empty p) : pmmAllocPage p = (0, p) :=
  if_pos h.free

theorem Empty.allocPages {p : BitmapAllocator} (h : Empty p) (count : Nat) :
    pmmAllocPages p count = (0, p) := by
  unfold pmmAllocPages
  rcases Nat.eq_zero_or_pos count with rfl | hpos
  · rw [if_neg (by omega)]
    exact if_pos (bitmapFindFreeBits_zero p)
  · exact if_pos (by rw [h.free]; exact hpos)

/-- Harmless calls keep the allocator ready. -/
theorem Ready.step {p : BitmapAllocator} (h : Ready p) {op : PmmOp} (hop : op.Harmless p) :
    Ready (op.exec p).2 := by
  cases op with
  | allocPage =>
      rcases h with hwf | hempty
      · rcases pmmAllocPage_spec hwf with ⟨hnone, _⟩ | ⟨b, q, hsome, _, hq⟩
        · rw [PmmOp.exec, hnone]
          exact Or.inl hwf
        · rw [PmmOp.exec, hsome]
          exact Or.inl hq
      · rw [PmmOp.exec, hempty.allocPage]
        exact Or.inr hempty
  | allocPages count =>
      rcases h with hwf | hempty
      · rcases pmmAllocPages_spec hwf count with ⟨hnone, _⟩ | ⟨b, q, hsome, _, _, _, hq⟩
        · rw [PmmOp.exec, hnone]
          exact Or.inl hwf
        · rw [PmmOp.exec, hsome]
          exact Or.inl hq
      · rw [PmmOp.exec, hempty.allocPages]
        exact Or.inr hempty
  | freePage addr =>
      simp only [PmmOp.exec, pmmFreePage]
      rcases hop with rfl | hpage
      · exact h
      · split
        · exact h
        · exact releasePage_harmless h hpage
  | freePages addr count =>
      simp only [PmmOp.exec, pmmFreePages]
      rcases hop with rfl | hpages
      · simpa using h
      · split
        · exact h
        · refine (Loop.foldl_range (fun _ q => Ready q ∧ SameArea p q) ⟨h, SameArea.refl p⟩ ?_).1
          rintro i hi q ⟨hq, hpq⟩
          exact ⟨releasePage_harmless hq ((harmlessPage_congr hpq _).mpr (hpages i hi)),
            hpq.trans (sameArea_releasePage q _)⟩

theorem Ready.failureKeeps {p : BitmapAllocator} (h : Ready p) : FailureKeeps p := by
  rintro op (rfl | ⟨count, rfl⟩) hzero
  · rcases h with hwf | hempty
    · rcases pmmAllocPage_spec hwf with ⟨hnone, _⟩ | ⟨b, q, hsome, ht, _⟩
      · rw [PmmOp.exec, hnone]
      · rw [PmmOp.exec, hsome] at hzero
        have hpos := ht.pos
        dsimp only at hzero
        omega
    · rw [PmmOp.exec, hempty.allocPage]
  · rcases h with hwf | hempty
    · rcases pmmAllocPages_spec hwf count with ⟨hnone, _⟩ | ⟨b, q, hsome, _, _, ht, _⟩
      · rw [PmmOp.exec, hnone]
      · rw [PmmOp.exec, hsome] at hzero
        have hpos := ht.pos
        dsimp only at hzero
        omega
    · rw [PmmOp.exec, hempty.allocPages]

theorem free_releasePage {p : BitmapAllocator} {page b : Nat} (h : Free p b) :
    Free (releasePage p page) b := by
  by_cases hin : page < p.size * 8
  · exact (free_releasePage_iff hin b).mpr (Or.inl h)
  · rwa [releasePage_beyond (by omega)]

theorem free_releasePage_self {p : BitmapAllocator} {page : Nat} (h : page < p.size * 8) :
    Free (releasePage p page) page :=
  (free_releasePage_iff h page).mpr (Or.inr rfl)

theorem not_guarded_of_free {p : BitmapAllocator} {b : Nat} (hb : Free p b)
    (hbad : ¬ HarmlessPage p b) : ¬ Guarded p := by
  intro hg
  have hlt := hb.1
  have hset := hg.marked b hlt (by unfold HarmlessPage at hbad; omega)
  rw [hb.2] at hset
  cases hset

theorem pmmFreePages_frees {p : BitmapAllocator} {addr count i : Nat} (haddr : addr ≠ 0)
    (hi : i < count) (hin : wrap (addr / 4096 + i) < p.size * 8) :
    Free (pmmFreePages p addr count) (wrap (addr / 4096 + i)) ∧
      SameArea p (pmmFreePages p addr count) := by
  have hcond : ¬ (addr = 0 ∨ count = 0) := by omega
  rw [pmmFreePages, if_neg hcond]
  have hloop := Loop.foldl_range (f := fun q k => releasePage q (wrap (addr / 4096 + k)))
    (n := count) (s := p)
    (fun n q => (i < n → Free q (wrap (addr / 4096 + i))) ∧ SameArea p q)
    ⟨fun h => absurd h (Nat.not_lt_zero i), SameArea.refl p⟩
    (by
      rintro k _ q ⟨hq, hpq⟩
      refine ⟨?_, hpq.trans (sameArea_releasePage q _)⟩
      intro hik
      rcases Nat.lt_succ_iff_lt_or_eq.mp hik with hlt | rfl
      · exact free_releasePage (hq hlt)
      · exact free_releasePage_self (by rwa [hpq.size]))
  exact ⟨hloop.1 hi, hloop.2⟩

theorem harmful_step {p : BitmapAllocator} (op : PmmOp) (hop : ¬ op.Harmless p) :
    ¬ Guarded (op.exec p).2 := by
  cases op with
  | allocPage => exact absurd trivial hop
  | allocPages count => exact absurd trivial hop
  | freePage addr =>
      simp only [PmmOp.Harmless, not_or] at hop
      have hin : addr / 4096 < p.size * 8 := by
        by_contra hge
        exact hop.2 (Or.inr (by omega))
      simp only [PmmOp.exec, pmmFreePage, if_neg hop.1]
      refine not_guarded_of_free (free_releasePage_self hin) fun hpage => hop.2 ?_
      exact (harmlessPage_congr (sameArea_releasePage p _) _).mp hpage
  | freePages addr count =>
      simp only [PmmOp.Harmless, not_or, not_forall] at hop
      obtain ⟨haddr, i, hi, hbad⟩ := hop
      have hin : wrap (addr / 4096 + i) < p.size * 8 := by
        by_contra hge
        exact hbad (Or.inr (by omega))
      obtain ⟨hfree, harea⟩ := pmmFreePages_frees haddr hi hin
      exact not_guarded_of_free hfree fun hpage => hbad ((harmlessPage_congr harea _).mp hpage)

/-- After `pmm_init` on an acceptable layout, as long as frees name only harmless
pages, every state is guarded and failed allocations change nothing; and the next
call keeps the guard if and only if it is harmless too. -/
theorem init_run_guarded {fuel : Nat} {boot : Boot} {st : KernelStatus} {p s : BitmapAllocator}
    (hboot : BootOk boot) (hinit : pmmInit fuel boot = some (st, p))
    (run : Transition.Run HarmlessStep p s) :
    Guarded s ∧ FailureKeeps s ∧ ∀ op : PmmOp, Guarded (op.exec s).2 ↔ op.Harmless s := by
  have hready : Ready s := by
    refine run.invariant ?_ (pmmInit_keeps hboot hinit)
    rintro t op u ⟨hop, rfl⟩ ht
    exact ht.step hop
  refine ⟨hready.guarded, hready.failureKeeps, ?_⟩
  intro op
  constructor
  · intro hg
    by_contra hop
    exact harmful_step _ hop hg
  · intro hop
    exact (hready.step hop).guarded

/-- One available entry `[1 MiB, 2 MiB)`; the boot information lies in low memory. -/
def demoBoot : Boot where
  mem :=
    let m : ByteMemory.Mem := fun _ => 0#8
    let m := ByteMemory.store32 m 0x9000 0x40
    let m := ByteMemory.store32 m 0x902C 24
    let m := ByteMemory.store32 m 0x9030 0x9100
    let m := ByteMemory.store32 m 0x9100 20
    let m := ByteMemory.store32 m 0x9104 0x100000
    let m := ByteMemory.store32 m 0x910C 0x100000
    ByteMemory.store32 m 0x9114 1
  mbInfo := 0x9000
  kernelEnd := 0x180000

theorem demoBoot_visited {e : Nat} (h : Visited demoBoot e) : e = 0x9100 := by
  have hstart : infoMmapAddr demoBoot.mem demoBoot.mbInfo = 0x9100 := by decide
  have hnext : ¬ nextEntry demoBoot.mem 0x9100 < mmapStop demoBoot.mem demoBoot.mbInfo := by decide
  rw [Visited, hstart] at h
  cases h with
  | here _ => rfl
  | next _ hrest =>
      cases hrest with
      | here hlt => exact absurd hlt hnext
      | next hlt _ => exact absurd hlt hnext

theorem demoBoot_low {top a : Nat} (ha : a < 0x180000) : ¬ InBitmapArea demoBoot top a := by
  have haddr : (fullBitmap demoBoot top).bitsAddr = 0x180000 := rfl
  have hsize : (fullBitmap demoBoot top).size ≤ 2 ^ 30 := by
    have hlt := wrap_lt (wrap (top / 4096) + 7)
    have hdiv := Nat.div_mul_le_self (wrap (wrap (wrap (top / 4096) + 7) / 8 + (4096 - 1))) 4096
    have hwrap := wrap_le (wrap (wrap (top / 4096) + 7) / 8 + (4096 - 1))
    simp only [fullBitmap, alignUp]
    omega
  rw [InBitmapArea, haddr]
  unfold wsub wrap
  omega

theorem demoBoot_ok : BootOk demoBoot := by
  refine ⟨?_, ?_, ?_⟩
  · intro e hv _
    rw [demoBoot_visited hv]
    decide
  · intro fuel top _ a _ hhi
    refine demoBoot_low (lt_trans hhi ?_)
    decide
  · intro fuel top _ e hv a _ hhi
    rw [demoBoot_visited hv] at hhi
    exact demoBoot_low (by omega)

theorem demoBoot_init : ∃ p, pmmInit 2 demoBoot = some (.ok, p) ∧ 0 < p.size := by
  have htop : maxAddr demoBoot.mem demoBoot.mbInfo 2
      (infoMmapAddr demoBoot.mem demoBoot.mbInfo) 0 = some 0x200000 := by decide
  obtain ⟨p, hinit⟩ := pmmInit_returns demoBoot_ok (by decide) htop
  obtain ⟨top, htop', _, harea⟩ := pmmInit_ready demoBoot_ok hinit
  cases htop.symm.trans htop'
  refine ⟨p, hinit, ?_⟩
  rw [harea.size]
  decide

/-- `free_page 1` at the shell names page 0: its bit is cleared. -/
theorem demoBoot_free_page_one :
    ∃ p, pmmInit 2 demoBoot = some (.ok, p) ∧
      Transition.Run AnyStep p (pmmFreePage p 1) ∧ ¬ Guarded (pmmFreePage p 1) := by
  obtain ⟨p, hinit, hsize⟩ := demoBoot_init
  refine ⟨p, hinit, (Transition.Run.refl p).snoc (a := .freePage 1) rfl, ?_⟩
  refine harmful_step (.freePage 1) ?_
  rintro (hzero | hpage)
  · cases hzero
  · unfold HarmlessPage at hpage
    omega

/-- A reserved page is freed twice in a row: wrong, but the guard holds. -/
theorem init_run_guarded_demo :
    ∃ p, pmmInit 2 demoBoot = some (.ok, p) ∧ Guarded (pmmFreePage (pmmFreePage p 0x1000) 0x1000) := by
  obtain ⟨p, hinit, _⟩ := demoBoot_init
  obtain ⟨top, htop, _, harea⟩ := pmmInit_ready demoBoot_ok hinit
  have hpage : ∀ q, SameArea p q → (PmmOp.freePage 0x1000).Harmless q := by
    intro q hpq
    refine Or.inr (Or.inl ⟨by decide, ?_⟩)
    have htop' : maxAddr demoBoot.mem demoBoot.mbInfo 2
        (infoMmapAddr demoBoot.mem demoBoot.mbInfo) 0 = some 0x200000 := by decide
    cases htop'.symm.trans htop
    rw [hpq.total, harea.total]
    decide
  have hrun : Transition.Run HarmlessStep p (pmmFreePage (pmmFreePage p 0x1000) 0x1000) := by
    refine ((Transition.Run.refl p).snoc (a := .freePage 0x1000)
      ⟨hpage p (SameArea.refl p), rfl⟩).snoc (a := .freePage 0x1000) ⟨hpage _ ?_, rfl⟩
    exact sameArea_releasePage p 1
  exact ⟨p, hinit, (init_run_guarded demoBoot_ok hinit hrun).1⟩

end Frostix.Pmm
