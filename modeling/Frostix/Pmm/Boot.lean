import Frostix.Lib.Transition
import Frostix.Pmm.Init

/-!
From `pmm_init` to arbitrary calls. A boot layout in which the bitmap does not
cover the boot information and available memory ends below 4 GiB yields a
well-formed allocator; frees are safe exactly when they name no page outside the
managed range. -/
namespace Frostix.Pmm
open Machine32 ByteMemory

structure SameArea (p q : BitmapAllocator) : Prop where
  addr : q.bitsAddr = p.bitsAddr
  size : q.size = p.size
  total : q.totalPages = p.totalPages

theorem SameArea.refl (p : BitmapAllocator) : SameArea p p := ⟨rfl, rfl, rfl⟩

theorem SameArea.trans {p q r : BitmapAllocator} (h : SameArea p q) (h' : SameArea q r) :
    SameArea p r :=
  ⟨h'.addr.trans h.addr, h'.size.trans h.size, h'.total.trans h.total⟩

/-- No memory at all: the allocator before `pmm_init`, or a map without available memory. -/
structure Empty (p : BitmapAllocator) : Prop where
  size : p.size = 0
  total : p.totalPages = 0
  free : p.freePages = 0
  used : p.usedPages = 0

def Ready (p : BitmapAllocator) : Prop := WellFormed p ∨ Empty p

theorem Empty.not_free {p : BitmapAllocator} (h : Empty p) (b : Nat) : ¬ Free p b := by
  intro hb
  have := hb.1
  rw [h.size] at this
  omega

theorem Empty.testBit {p : BitmapAllocator} (h : Empty p) (b : Nat) :
    bitmapTestBit p b = false := by
  simp [bitmapTestBit_eq, h.size]

theorem Empty.releasePage {p : BitmapAllocator} (h : Empty p) (b : Nat) :
    releasePage p b = p := by
  rw [Pmm.releasePage, h.testBit, if_neg (by decide)]

theorem sameArea_releasePage (p : BitmapAllocator) (b : Nat) : SameArea p (releasePage p b) := by
  unfold releasePage
  split
  · exact ⟨by simp, by simp, by simp⟩
  · exact SameArea.refl p

theorem sameArea_markPage (p : BitmapAllocator) (b : Nat) : SameArea p (markPage p b) := by
  unfold markPage
  split
  · exact SameArea.refl p
  · exact ⟨by simp, by simp, by simp⟩

theorem markPage_wellFormed {p : BitmapAllocator} (h : WellFormed p) {page : Nat}
    (hlt : page < p.totalPages) : WellFormed (markPage p page) := by
  have hcov := h.covers
  unfold markPage
  by_cases hset : bitmapTestBit p page = true
  · rwa [if_pos hset]
  · rw [if_neg hset]
    have hin : page < p.size * 8 := by omega
    rw [Bool.not_eq_true, bitmapTestBit_false_iff hin] at hset
    refine (@WellFormed.take _ _ page 1 h ?_ (by decide) ?_ ?_ ?_ ?_ ?_).2
    · intro i hi
      simpa [Nat.lt_one_iff.mp hi] using hset
    · intro c
      have hiff : (page ≤ c ∧ c < page + 1) ↔ c = page := by omega
      simp only [hiff]
      exact (bitAt_setBit hin c).trans (Bool.or_comm _ _)
    · exact bitmapSetBit_size _ _
    · exact bitmapSetBit_totalPages _ _
    · simp only [bitmapSetBit_freePages]
      split <;> omega
    · simp only [bitmapSetBit_usedPages]

theorem markRegionAllocated_keeps {p : BitmapAllocator} (h : Ready p) (start len : Nat) :
    Ready (markRegionAllocated p start len) ∧
      SameArea p (markRegionAllocated p start len) := by
  unfold markRegionAllocated
  split
  · exact ⟨h, SameArea.refl p⟩
  · apply Loop.foldl_range (fun _ q => Ready q ∧ SameArea p q)
    · exact ⟨h, SameArea.refl p⟩
    · rintro i hi q ⟨hq, hpq⟩
      refine ⟨?_, hpq.trans (sameArea_markPage q _)⟩
      rcases hq with hwf | hempty
      · refine Or.inl (markPage_wellFormed hwf ?_)
        rw [hpq.total]
        omega
      · have := hpq.total
        rw [hempty.total] at this
        omega

theorem freeEntryPage_keeps {p : BitmapAllocator} (h : Ready p) (page : Nat) (hpos : 0 < page)
    (hlt : page < p.totalPages) : Ready (freeEntryPage p page) ∧ SameArea p (freeEntryPage p page) := by
  unfold freeEntryPage
  dsimp only
  split
  · exact ⟨h, SameArea.refl p⟩
  · refine ⟨?_, sameArea_releasePage p page⟩
    rcases h with hwf | hempty
    · exact Or.inl (releasePage_spec hwf hpos hlt).2
    · exact Or.inr (by rwa [hempty.releasePage])

/-- An available entry that ends below 4 GiB and within the managed pages frees
only managed pages above the first megabyte. -/
theorem freeEntry_keeps {p : BitmapAllocator} (h : Ready p) {m : Mem} {e : Nat}
    (hsum : entryType m e = 1 → entryAddr m e + entryLen m e ≤ 2 ^ 32)
    (hend : entryType m e = 1 → entryEnd m e / 4096 ≤ p.totalPages) :
    Ready (freeEntry p m e) ∧ SameArea p (freeEntry p m e) := by
  unfold freeEntry
  split
  · rename_i hcond
    have hs := hsum hcond.1
    have he := hend hcond.1
    have hendEq : entryEnd m e = entryAddr m e + entryLen m e := Nat.mod_eq_of_lt (by omega)
    rw [hendEq] at he
    have hstart : wrap ((entryAddr m e + 4095) % 2 ^ 64 / 4096) = (entryAddr m e + 4095) / 4096 := by
      rw [Nat.mod_eq_of_lt (by omega), wrap_of_lt (by omega)]
    have hstop : wrap (entryEnd m e / 4096) = (entryAddr m e + entryLen m e) / 4096 := by
      rw [hendEq, wrap_of_lt (by omega)]
    simp only [hstart, hstop]
    apply Loop.foldl_range (fun _ q => Ready q ∧ SameArea p q)
    · exact ⟨h, SameArea.refl p⟩
    · rintro i hi q ⟨hq, hpq⟩
      have hpage := freeEntryPage_keeps hq
        ((entryAddr m e + 4095) / 4096 + i) (by omega) (by rw [hpq.total]; omega)
      exact ⟨hpage.1, hpq.trans hpage.2⟩
  · exact ⟨h, SameArea.refl p⟩

theorem markModulesFrom_keeps (boot : Boot) (mods : Nat) (left : Nat) {p : BitmapAllocator}
    (h : Ready p) (i : Nat) :
    Ready (markModulesFrom boot mods left p i) ∧ SameArea p (markModulesFrom boot mods left p i) := by
  induction left generalizing p i with
  | zero => exact ⟨h, SameArea.refl p⟩
  | succ left ih =>
      unfold markModulesFrom
      dsimp only
      split
      · have hmark := markRegionAllocated_keeps h (modStart (overlay p boot.mem) (wrap (mods + 16 * i)))
          (wsub (modEnd (overlay p boot.mem) (wrap (mods + 16 * i)))
            (modStart (overlay p boot.mem) (wrap (mods + 16 * i))))
        exact ⟨(ih hmark.1 (i + 1)).1, hmark.2.trans (ih hmark.1 (i + 1)).2⟩
      · exact ⟨h, SameArea.refl p⟩

theorem markModules_keeps (boot : Boot) {p : BitmapAllocator} (h : Ready p) :
    Ready (markModules boot p) ∧ SameArea p (markModules boot p) := by
  unfold markModules
  dsimp only
  split
  · exact markModulesFrom_keeps boot _ _ h 0
  · exact ⟨h, SameArea.refl p⟩

theorem reserveBootData_keeps (boot : Boot) {p : BitmapAllocator} (h : Ready p) :
    Ready (reserveBootData boot p) ∧ SameArea p (reserveBootData boot p) := by
  obtain ⟨hinfo, ainfo⟩ := markRegionAllocated_keeps h boot.mbInfo sizeofInfo
  obtain ⟨hmap, amap⟩ := markRegionAllocated_keeps hinfo
    (infoMmapAddr (overlay (markRegionAllocated p boot.mbInfo sizeofInfo) boot.mem) boot.mbInfo)
    (infoMmapLength (overlay (markRegionAllocated p boot.mbInfo sizeofInfo) boot.mem) boot.mbInfo)
  obtain ⟨hmods, amods⟩ := markModules_keeps boot hmap
  obtain ⟨hkernel, akernel⟩ := markRegionAllocated_keeps hmods 0x100000
    (wsub boot.kernelEnd 0x100000)
  exact ⟨hkernel, ((ainfo.trans amap).trans amods).trans akernel⟩

/-- The entries that a walk from `e` reads. -/
inductive VisitedFrom (m : Mem) (info : Nat) : Nat → Nat → Prop
  | here {e : Nat} : e < mmapStop m info → VisitedFrom m info e e
  | next {e e' : Nat} : e < mmapStop m info → VisitedFrom m info (nextEntry m e) e' →
      VisitedFrom m info e e'

def Visited (boot : Boot) (e : Nat) : Prop :=
  VisitedFrom boot.mem boot.mbInfo (infoMmapAddr boot.mem boot.mbInfo) e

/-- The first walk returns an upper bound of all available ends, and no more. -/
theorem maxAddr_spec {m : Mem} {info fuel e best top : Nat}
    (h : maxAddr m info fuel e best = some top) :
    best ≤ top ∧
      (∀ e', VisitedFrom m info e e' → entryType m e' = 1 → entryEnd m e' ≤ top) ∧
      ∀ bound, best ≤ bound →
        (∀ e', VisitedFrom m info e e' → entryType m e' = 1 → entryEnd m e' ≤ bound) →
        top ≤ bound := by
  induction fuel generalizing e best with
  | zero => cases h
  | succ fuel ih =>
      unfold maxAddr at h
      split at h
      · rename_i hlt
        obtain ⟨hbest, hends, hleast⟩ := ih h
        have hhere : best ≤ top ∧ (entryType m e = 1 → entryEnd m e ≤ top) := by
          split at hbest
          · exact ⟨(Nat.le_max_left _ _).trans hbest, fun _ => (Nat.le_max_right _ _).trans hbest⟩
          · exact ⟨hbest, fun htype => absurd htype ‹_›⟩
        refine ⟨hhere.1, ?_, ?_⟩
        · intro e' hv htype
          cases hv with
          | here _ => exact hhere.2 htype
          | next _ hrest => exact hends e' hrest htype
        · intro bound hb hall
          refine hleast bound ?_ fun e' hv => hall e' (.next hlt hv)
          split
          · exact Nat.max_le.mpr ⟨hb, hall e (.here hlt) ‹_›⟩
          · exact hb
      · rename_i hstop
        cases h
        refine ⟨le_rfl, ?_, fun bound hb _ => hb⟩
        intro e' hv
        cases hv with
        | here hlt => exact absurd hlt hstop
        | next hlt _ => exact absurd hlt hstop

/-- Byte `a` belongs to the area of the bitmap. -/
def InBitmapArea (boot : Boot) (top a : Nat) : Prop :=
  wsub a (fullBitmap boot top).bitsAddr < (fullBitmap boot top).size

/-- Boot layouts on which `pmm_init` works as intended: available memory ends below
4 GiB, and the bitmap covers neither `multiboot_info_t` nor an entry of the map. -/
structure BootOk (boot : Boot) : Prop where
  below : ∀ e, Visited boot e → entryType boot.mem e = 1 →
    entryAddr boot.mem e + entryLen boot.mem e ≤ 2 ^ 32
  info_apart : ∀ fuel top,
    maxAddr boot.mem boot.mbInfo fuel (infoMmapAddr boot.mem boot.mbInfo) 0 = some top →
    ∀ a, boot.mbInfo ≤ a → a < boot.mbInfo + sizeofInfo → ¬ InBitmapArea boot top a
  map_apart : ∀ fuel top,
    maxAddr boot.mem boot.mbInfo fuel (infoMmapAddr boot.mem boot.mbInfo) 0 = some top →
    ∀ e, Visited boot e → ∀ a, e ≤ a → a < e + 24 → ¬ InBitmapArea boot top a

theorem overlay_same {boot : Boot} {top a n : Nat} {p : BitmapAllocator}
    (harea : SameArea (fullBitmap boot top) p)
    (h : ∀ x, a ≤ x → x < a + n → ¬ InBitmapArea boot top x) :
    Same boot.mem (overlay p boot.mem) a n := by
  intro x hlo hhi
  have hout := h x hlo hhi
  rw [InBitmapArea, ← harea.addr, ← harea.size] at hout
  rw [overlay, if_neg hout]

theorem mmapStop_overlay {m m' : Mem} {info : Nat} (h : Same m m' info sizeofInfo) :
    mmapStop m' info = mmapStop m info := by
  unfold sizeofInfo at h
  unfold mmapStop infoMmapAddr infoMmapLength
  rw [load32_congr (h.mono (by omega) (by omega)), load32_congr (h.mono (by omega) (by omega))]

theorem entry_overlay {m m' : Mem} {e : Nat} (h : Same m m' e 24) :
    entrySize m' e = entrySize m e ∧ entryType m' e = entryType m e ∧
      entryAddr m' e = entryAddr m e ∧ entryLen m' e = entryLen m e := by
  unfold entrySize entryType entryAddr entryLen
  exact ⟨load32_congr (h.mono le_rfl (by omega)), load32_congr (h.mono (by omega) (by omega)),
    load64_congr (h.mono (by omega) (by omega)), load64_congr (h.mono (by omega) (by omega))⟩

section SecondWalk

variable {boot : Boot} {top : Nat}

structure EntryOk (boot : Boot) (top e : Nat) : Prop where
  sum_le : entryType boot.mem e = 1 → entryAddr boot.mem e + entryLen boot.mem e ≤ 2 ^ 32
  end_le : entryType boot.mem e = 1 → entryEnd boot.mem e / 4096 ≤ wrap (top / 4096)
  apart : ∀ a, e ≤ a → a < e + 24 → ¬ InBitmapArea boot top a

theorem freeEntry_overlay_keeps {p : BitmapAllocator} {e : Nat} (h : Ready p)
    (harea : SameArea (fullBitmap boot top) p) (he : EntryOk boot top e) :
    Ready (freeEntry p (overlay p boot.mem) e) ∧
      SameArea (fullBitmap boot top) (freeEntry p (overlay p boot.mem) e) := by
  obtain ⟨_, htype, haddr, hlen⟩ := entry_overlay (overlay_same harea he.apart)
  have hkeep := freeEntry_keeps h (m := overlay p boot.mem) (e := e)
    (by rw [htype, haddr, hlen]; exact he.sum_le)
    (by rw [entryEnd, htype, haddr, hlen, harea.total]; exact he.end_le)
  exact ⟨hkeep.1, harea.trans hkeep.2⟩

theorem freeEntries_keeps
    (hinfo : ∀ a, boot.mbInfo ≤ a → a < boot.mbInfo + sizeofInfo → ¬ InBitmapArea boot top a)
    {fuel e : Nat} {p : BitmapAllocator} (h : Ready p)
    (harea : SameArea (fullBitmap boot top) p)
    (hall : ∀ e', VisitedFrom boot.mem boot.mbInfo e e' → EntryOk boot top e')
    {q : BitmapAllocator} (hrun : freeEntries boot fuel p e = some q) :
    Ready q ∧ SameArea (fullBitmap boot top) q := by
  induction fuel generalizing p e with
  | zero => cases hrun
  | succ fuel ih =>
      unfold freeEntries at hrun
      rw [mmapStop_overlay (overlay_same harea hinfo)] at hrun
      split at hrun
      · rename_i hlt
        have he := hall e (.here hlt)
        obtain ⟨hready, harea'⟩ := freeEntry_overlay_keeps h harea he
        have hsize := (entry_overlay (overlay_same harea' he.apart)).1
        simp only [nextEntry, hsize] at hrun
        exact ih hready harea' (fun e' hv => hall e' (.next hlt hv)) hrun
      · cases hrun
        exact ⟨h, harea⟩

theorem freeEntries_ends
    (hinfo : ∀ a, boot.mbInfo ≤ a → a < boot.mbInfo + sizeofInfo → ¬ InBitmapArea boot top a)
    {fuel e best best' : Nat} {p : BitmapAllocator} (h : Ready p)
    (harea : SameArea (fullBitmap boot top) p)
    (hall : ∀ e', VisitedFrom boot.mem boot.mbInfo e e' → EntryOk boot top e')
    (hfirst : maxAddr boot.mem boot.mbInfo fuel e best = some best') :
    ∃ q, freeEntries boot fuel p e = some q := by
  induction fuel generalizing p e best with
  | zero => cases hfirst
  | succ fuel ih =>
      unfold maxAddr at hfirst
      unfold freeEntries
      rw [mmapStop_overlay (overlay_same harea hinfo)]
      split at hfirst
      · rename_i hlt
        rw [if_pos hlt]
        have he := hall e (.here hlt)
        obtain ⟨hready, harea'⟩ := freeEntry_overlay_keeps h harea he
        have hsize := (entry_overlay (overlay_same harea' he.apart)).1
        simp only [nextEntry, hsize]
        exact ih hready harea' (fun e' hv => hall e' (.next hlt hv)) hfirst
      · rename_i hstop
        exact ⟨p, if_neg hstop⟩

end SecondWalk

theorem BootOk.top_le {boot : Boot} (h : BootOk boot) {fuel top : Nat}
    (htop : maxAddr boot.mem boot.mbInfo fuel (infoMmapAddr boot.mem boot.mbInfo) 0 = some top) :
    top ≤ 2 ^ 32 := by
  refine (maxAddr_spec htop).2.2 (2 ^ 32) (by omega) ?_
  intro e hv htype
  exact (Nat.mod_le _ _).trans (h.below e hv htype)

theorem BootOk.entryOk {boot : Boot} (h : BootOk boot) {fuel top : Nat}
    (htop : maxAddr boot.mem boot.mbInfo fuel (infoMmapAddr boot.mem boot.mbInfo) 0 = some top)
    {e : Nat} (hv : Visited boot e) : EntryOk boot top e := by
  refine ⟨h.below e hv, ?_, h.map_apart fuel top htop e hv⟩
  intro htype
  have hle := h.top_le htop
  rw [wrap_of_lt (by omega)]
  exact Nat.div_le_div_right ((maxAddr_spec htop).2.1 e hv htype)

theorem fullBitmap_ready (boot : Boot) {top : Nat} (htop : top ≤ 2 ^ 32) :
    Ready (fullBitmap boot top) := by
  have htotal : wrap (top / 4096) = top / 4096 := wrap_of_lt (by omega)
  have hsize : (fullBitmap boot top).size = ((top / 4096 + 7) / 8 + 4095) / 4096 * 4096 := by
    simp only [fullBitmap, htotal]
    rw [wrap_of_lt (by omega), alignUp_of_lt (by omega)]
  have hbits : ∀ b, bitAt (fullBitmap boot top) b = true := by
    intro b
    have hall : ∀ j < 8, (0xFF#8).getLsbD j = true := by decide
    exact hall (b % 8) (Nat.mod_lt _ (by decide))
  have hnone : freeSet (fullBitmap boot top) = ∅ := by
    ext b
    simp [Free, hbits]
  rcases Nat.eq_zero_or_pos (top / 4096) with hzero | hpos
  · refine Or.inr ⟨by rw [hsize, hzero], ?_, rfl, ?_⟩
    · exact htotal.trans hzero
    · exact htotal.trans hzero
  · have htot : (fullBitmap boot top).totalPages = top / 4096 := htotal
    refine Or.inl ⟨by omega, by omega, ?_, fun b _ _ => hbits b, ?_, ?_⟩
    · rw [bitmapTestBit_eq, hbits, hsize]
      simp only [Bool.and_true, decide_eq_true_eq]
      omega
    · rw [hnone]
      rfl
    · rfl

theorem reservedBitmap_keeps (boot : Boot) {top : Nat} (htop : top ≤ 2 ^ 32) :
    Ready (reservedBitmap boot top) ∧ SameArea (fullBitmap boot top) (reservedBitmap boot top) := by
  have hlow := markRegionAllocated_keeps (fullBitmap_ready boot htop) 0 0x100000
  have hmap := markRegionAllocated_keeps hlow.1
    (markRegionAllocated (fullBitmap boot top) 0 0x100000).bitsAddr
    (markRegionAllocated (fullBitmap boot top) 0 0x100000).size
  exact ⟨hmap.1, hlow.2.trans hmap.2⟩

theorem infoMmapAddr_reserved {fuel top : Nat} {boot : Boot} (h : BootOk boot)
    (htop : maxAddr boot.mem boot.mbInfo fuel (infoMmapAddr boot.mem boot.mbInfo) 0 = some top) :
    infoMmapAddr (overlay (reservedBitmap boot top) boot.mem) boot.mbInfo =
      infoMmapAddr boot.mem boot.mbInfo := by
  have harea := (reservedBitmap_keeps boot (h.top_le htop)).2
  have hinfo := overlay_same harea (h.info_apart fuel top htop)
  unfold infoMmapAddr
  exact load32_congr (hinfo.mono (by omega) (by unfold sizeofInfo; omega))

/-- On an acceptable boot layout a successful `pmm_init` leaves a ready allocator
whose bitmap is the one sized by the first walk. -/
theorem pmmInit_ready {fuel : Nat} {boot : Boot} {p : BitmapAllocator}
    (h : BootOk boot) (hinit : pmmInit fuel boot = some (.ok, p)) :
    ∃ top, maxAddr boot.mem boot.mbInfo fuel (infoMmapAddr boot.mem boot.mbInfo) 0 = some top ∧
      Ready p ∧ SameArea (fullBitmap boot top) p := by
  unfold pmmInit at hinit
  split at hinit
  · cases hinit
  · simp only [Option.bind_eq_bind, Option.bind_eq_some_iff, Option.some.injEq, Prod.mk.injEq,
      true_and] at hinit
    obtain ⟨top, htop, q, hq, rfl⟩ := hinit
    obtain ⟨hready, harea⟩ := reservedBitmap_keeps boot (h.top_le htop)
    rw [infoMmapAddr_reserved h htop] at hq
    obtain ⟨hwalk, awalk⟩ := freeEntries_keeps (h.info_apart fuel top htop) hready harea
      (fun e hv => h.entryOk htop hv) hq
    obtain ⟨hlast, alast⟩ := reserveBootData_keeps boot hwalk
    exact ⟨top, htop, hlast, awalk.trans alast⟩

/-- Without a memory map `pmm_init` fails and leaves the allocator empty. -/
theorem pmmInit_keeps {fuel : Nat} {boot : Boot} {st : KernelStatus} {p : BitmapAllocator}
    (h : BootOk boot) (hinit : pmmInit fuel boot = some (st, p)) : Ready p := by
  by_cases hflag : infoFlags boot.mem boot.mbInfo / 64 % 2 = 0
  · rw [pmmInit, if_pos hflag] at hinit
    cases hinit
    exact Or.inr ⟨rfl, rfl, rfl, rfl⟩
  · have hok : st = .ok := by
      simp only [pmmInit, if_neg hflag, Option.bind_eq_bind, Option.bind_eq_some_iff,
        Option.some.injEq, Prod.mk.injEq] at hinit
      obtain ⟨_, _, _, _, hst, _⟩ := hinit
      exact hst.symm
    subst hok
    obtain ⟨_, _, hready, _⟩ := pmmInit_ready h hinit
    exact hready

theorem pmmInit_returns {fuel top : Nat} {boot : Boot} (h : BootOk boot)
    (hflag : infoFlags boot.mem boot.mbInfo / 64 % 2 ≠ 0)
    (htop : maxAddr boot.mem boot.mbInfo fuel (infoMmapAddr boot.mem boot.mbInfo) 0 = some top) :
    ∃ p, pmmInit fuel boot = some (.ok, p) := by
  obtain ⟨hready, harea⟩ := reservedBitmap_keeps boot (h.top_le htop)
  obtain ⟨q, hq⟩ := freeEntries_ends (h.info_apart fuel top htop) hready harea
    (fun e hv => h.entryOk htop hv) htop
  refine ⟨reserveBootData boot q, ?_⟩
  simp only [pmmInit, if_neg hflag, htop, infoMmapAddr_reserved h htop, hq, Option.bind_eq_bind,
    Option.bind_some]

end Frostix.Pmm
