import Frostix.Pmm.Boot

/-!
Which pages are free after `pmm_init`. Reservations round outwards and freed entries round
inwards, so that on a layout whose bitmap covers none of the boot information a page is free
exactly if it lies in one available entry and touches nothing that is reserved. -/
namespace Frostix.Pmm
open Machine32 ByteMemory

/-- The page has a byte in common with `[start, start + len)`. -/
def PageOverlaps (page start len : Nat) : Prop :=
  0 < len ∧ start < (page + 1) * 4096 ∧ page * 4096 < start + len

instance (page start len : Nat) : Decidable (PageOverlaps page start len) :=
  inferInstanceAs (Decidable (_ ∧ _ ∧ _))

/-- The page lies wholly in one available entry that starts above the first megabyte. -/
def Usable (boot : Boot) (page : Nat) : Prop :=
  ∃ e, Visited boot e ∧ entryType boot.mem e = 1 ∧ 0x100000 ≤ entryAddr boot.mem e ∧
    entryAddr boot.mem e ≤ page * 4096 ∧ (page + 1) * 4096 ≤ entryAddr boot.mem e + entryLen boot.mem e

/-- There is a module `i`. -/
def HasModule (boot : Boot) (i : Nat) : Prop :=
  infoFlags boot.mem boot.mbInfo / 8 % 2 = 1 ∧ i < infoModsCount boot.mem boot.mbInfo

/-- The address of the descriptor of module `i`. -/
def moduleAt (boot : Boot) (i : Nat) : Nat := wrap (infoModsAddr boot.mem boot.mbInfo + 16 * i)

/-- The page touches module `i`. -/
def InModule (boot : Boot) (i page : Nat) : Prop :=
  PageOverlaps page (modStart boot.mem (moduleAt boot i))
    (modEnd boot.mem (moduleAt boot i) - modStart boot.mem (moduleAt boot i))

/-- The page touches the bitmap, the boot information, a module or the kernel image. -/
def ReservedPage (boot : Boot) (p : BitmapAllocator) (page : Nat) : Prop :=
  PageOverlaps page p.bitsAddr p.size ∨ PageOverlaps page boot.mbInfo sizeofInfo ∨
    PageOverlaps page (infoMmapAddr boot.mem boot.mbInfo) (infoMmapLength boot.mem boot.mbInfo) ∨
    (∃ i, HasModule boot i ∧ InModule boot i page) ∨
    PageOverlaps page 0x100000 (boot.kernelEnd - 0x100000)

structure BitmapExact (boot : Boot) (p : BitmapAllocator) : Prop where
  clear : ∀ page < p.totalPages,
    bitmapTestBit p page = false ↔ Usable boot page ∧ ¬ ReservedPage boot p page
  tail : ∀ b, p.totalPages ≤ b → b < p.size * 8 → bitmapTestBit p b = true
  free_count : p.freePages = (freeSet p).card
  used_eq : p.usedPages = p.totalPages - p.freePages

/-- The addresses are 32-bit words, and the kernel is linked at 1 MiB. -/
structure BootWords (boot : Boot) : Prop where
  info : boot.mbInfo < 2 ^ 32
  kernel : boot.kernelEnd < 2 ^ 32
  linked : 0x100000 ≤ boot.kernelEnd

/-- The bitmap covers neither `multiboot_info_t` nor an entry of the map nor a module
descriptor, and it ends below the top of the address space. -/
structure BitmapApart (boot : Boot) (top : Nat) : Prop where
  info : ∀ a, boot.mbInfo ≤ a → a < boot.mbInfo + sizeofInfo → ¬ InBitmapArea boot top a
  map : ∀ e, Visited boot e → ∀ a, e ≤ a → a < e + 24 → ¬ InBitmapArea boot top a
  modules : ∀ i, HasModule boot i → ∀ a, moduleAt boot i ≤ a → a < moduleAt boot i + 8 →
    ¬ InBitmapArea boot top a
  fits : (fullBitmap boot top).bitsAddr + (fullBitmap boot top).size < 2 ^ 32

theorem Ready.free_lt {p : BitmapAllocator} (h : Ready p) {b : Nat} (hb : Free p b) : b < p.totalPages := by
  rcases h with hwf | hempty
  · exact (hwf.free_bounds hb).2
  · exact absurd hb (hempty.not_free b)

theorem Ready.total_le {p : BitmapAllocator} (h : Ready p) : p.totalPages ≤ 2 ^ 20 := by
  rcases h with hwf | hempty
  · exact hwf.total_le
  · rw [hempty.total]
    exact Nat.zero_le _

theorem free_markPage {p : BitmapAllocator} {page : Nat} (hin : page < p.size * 8) (b : Nat) :
    Free (markPage p page) b ↔ Free p b ∧ b ≠ page := by
  unfold markPage
  by_cases hset : bitmapTestBit p page = true
  · rw [if_pos hset]
    refine ⟨fun hb => ⟨hb, ?_⟩, And.left⟩
    rintro rfl
    exact (testBit_iff.mp hset).2 hb
  · rw [if_neg hset]
    change b < (bitmapSetBit p page).size * 8 ∧ bitAt (bitmapSetBit p page) b = false ↔ _
    rw [bitmapSetBit_size, bitAt_setBit hin, Bool.or_eq_false_iff, decide_eq_false_iff_not, Free]
    tauto

/-- A region given by words is reserved page by page, rounded outwards. -/
theorem free_markRegionAllocated {p : BitmapAllocator} (h : Ready p) {start len : Nat}
    (hstart : start < 2 ^ 32) (hlen : len < 2 ^ 32) (b : Nat) :
    Free (markRegionAllocated p start len) b ↔ Free p b ∧ ¬ PageOverlaps b start len := by
  unfold markRegionAllocated
  by_cases hzero : len = 0
  · rw [if_pos hzero]
    exact (and_iff_left fun hover => absurd hover.1 (by omega)).symm
  rw [if_neg hzero, Nat.mod_eq_of_lt (by omega), wrap_of_lt (by omega), wrap_of_lt (by omega)]
  have hloop := Loop.foldl_range (f := fun q i => markPage q (start / 4096 + i))
    (n := min ((start + len + 4095) / 4096) p.totalPages - start / 4096) (s := p)
    (fun i q => Ready q ∧ SameArea p q ∧
      ∀ b, Free q b ↔ Free p b ∧ ¬ (start / 4096 ≤ b ∧ b < start / 4096 + i))
    ⟨h, SameArea.refl p, fun b => (and_iff_left (by omega)).symm⟩
    (by
      rintro i hi q ⟨hq, hpq, hfree⟩
      rcases hq with hwf | hempty
      · have hlt : start / 4096 + i < q.totalPages := by
          rw [hpq.total]
          omega
        have hcov := hwf.covers
        refine ⟨Or.inl (markPage_wellFormed hwf hlt), hpq.trans (sameArea_markPage q _), ?_⟩
        intro b
        rw [free_markPage (by omega), hfree, and_assoc]
        exact and_congr_right fun _ => by omega
      · have htotal := hpq.total
        rw [hempty.total] at htotal
        omega)
  rw [hloop.2.2]
  refine and_congr_right fun hb => not_congr ?_
  have hlt := h.free_lt hb
  unfold PageOverlaps
  omega

section Walk

variable {boot : Boot} {top : Nat}

theorem fullBitmap_aligned (boot : Boot) (top : Nat) :
    (fullBitmap boot top).bitsAddr % 4096 = 0 ∧ (fullBitmap boot top).size % 4096 = 0 := by
  unfold fullBitmap alignUp
  constructor
  · exact Nat.mul_mod_left _ _
  · exact Nat.mul_mod_left _ _

theorem area_test {p : BitmapAllocator} (harea : SameArea (fullBitmap boot top) p)
    (hfits : (fullBitmap boot top).bitsAddr + (fullBitmap boot top).size < 2 ^ 32) {page : Nat}
    (hpage : page < 2 ^ 20) :
    (p.bitsAddr ≤ wrap (page * 4096) ∧ wrap (page * 4096) < wrap (p.bitsAddr + p.size)) ↔
      PageOverlaps page p.bitsAddr p.size := by
  obtain ⟨haddr, hsize⟩ := fullBitmap_aligned boot top
  rw [← harea.addr, ← harea.size] at hfits
  rw [← harea.addr] at haddr
  rw [← harea.size] at hsize
  rw [wrap_of_lt (by omega), wrap_of_lt hfits]
  unfold PageOverlaps
  omega

theorem free_freeEntryPage {p : BitmapAllocator} (h : Ready p) (harea : SameArea (fullBitmap boot top) p)
    (hfits : (fullBitmap boot top).bitsAddr + (fullBitmap boot top).size < 2 ^ 32) {page : Nat}
    (hpos : 0 < page) (hlt : page < p.totalPages) (b : Nat) :
    Free (freeEntryPage p page) b ↔ Free p b ∨ b = page ∧ ¬ PageOverlaps page p.bitsAddr p.size := by
  have hle := h.total_le
  unfold freeEntryPage
  dsimp only
  by_cases hin : PageOverlaps page p.bitsAddr p.size
  · rw [if_pos ((area_test harea hfits (by omega)).mpr hin)]
    simp [hin]
  · rw [if_neg fun hc => hin ((area_test harea hfits (by omega)).mp hc)]
    rcases h with hwf | hempty
    · rw [(releasePage_spec hwf hpos hlt).1.free_iff]
      simp [hin]
    · rw [hempty.total] at hlt
      exact absurd hlt (Nat.not_lt_zero _)

/-- One entry frees the pages that lie wholly in it, but for those of the bitmap. -/
theorem free_freeEntry {p : BitmapAllocator} (h : Ready p) (harea : SameArea (fullBitmap boot top) p)
    (hfits : (fullBitmap boot top).bitsAddr + (fullBitmap boot top).size < 2 ^ 32) {m : Mem} {e : Nat}
    (hsum : entryType m e = 1 → entryAddr m e + entryLen m e ≤ 2 ^ 32)
    (hend : entryType m e = 1 → entryEnd m e / 4096 ≤ p.totalPages) (b : Nat) :
    Free (freeEntry p m e) b ↔ Free p b ∨
      (entryType m e = 1 ∧ 0x100000 ≤ entryAddr m e ∧ entryAddr m e ≤ b * 4096 ∧
        (b + 1) * 4096 ≤ entryAddr m e + entryLen m e) ∧ ¬ PageOverlaps b p.bitsAddr p.size := by
  unfold freeEntry
  by_cases hcond : entryType m e = 1 ∧ 0x100000 ≤ entryAddr m e
  · have hs := hsum hcond.1
    have he := hend hcond.1
    have hendEq : entryEnd m e = entryAddr m e + entryLen m e := Nat.mod_eq_of_lt (by omega)
    rw [hendEq] at he
    rw [if_pos hcond, hendEq, Nat.mod_eq_of_lt (by omega), wrap_of_lt (by omega), wrap_of_lt (by omega)]
    have hloop := Loop.foldl_range
      (f := fun q i => freeEntryPage q ((entryAddr m e + 4095) / 4096 + i))
      (n := (entryAddr m e + entryLen m e) / 4096 - (entryAddr m e + 4095) / 4096) (s := p)
      (fun i q => Ready q ∧ SameArea p q ∧ ∀ b, Free q b ↔ Free p b ∨
        ((entryAddr m e + 4095) / 4096 ≤ b ∧ b < (entryAddr m e + 4095) / 4096 + i) ∧
          ¬ PageOverlaps b p.bitsAddr p.size)
      ⟨h, SameArea.refl p, fun b => (or_iff_left (by omega)).symm⟩
      (by
        rintro i hi q ⟨hq, hpq, hfree⟩
        have hpos : 0 < (entryAddr m e + 4095) / 4096 + i := by omega
        have hlt : (entryAddr m e + 4095) / 4096 + i < q.totalPages := by
          rw [hpq.total]
          omega
        obtain ⟨hq', hqq⟩ := freeEntryPage_keeps hq _ hpos hlt
        refine ⟨hq', hpq.trans hqq, fun b => ?_⟩
        rw [free_freeEntryPage hq (harea.trans hpq) hfits hpos hlt, hfree, hpq.addr, hpq.size]
        constructor
        · rintro ((hb | ⟨hb, hout⟩) | ⟨rfl, hout⟩)
          · exact Or.inl hb
          · exact Or.inr ⟨by omega, hout⟩
          · exact Or.inr ⟨by omega, hout⟩
        · rintro (hb | ⟨hb, hout⟩)
          · exact Or.inl (Or.inl hb)
          · by_cases heq : b = (entryAddr m e + 4095) / 4096 + i
            · subst heq
              exact Or.inr ⟨rfl, hout⟩
            · exact Or.inl (Or.inr ⟨by omega, hout⟩))
    rw [hloop.2.2]
    refine or_congr_right (and_congr_left fun _ => ?_)
    constructor
    · intro hb
      exact ⟨hcond.1, hcond.2, by omega, by omega⟩
    · rintro ⟨-, -, hlo, hhi⟩
      omega
  · rw [if_neg hcond]
    refine (or_iff_left ?_).symm
    rintro ⟨⟨htype, haddr, -⟩, -⟩
    exact hcond ⟨htype, haddr⟩

/-- Entry `e` frees page `b`. -/
def EntryHolds (boot : Boot) (e b : Nat) : Prop :=
  entryType boot.mem e = 1 ∧ 0x100000 ≤ entryAddr boot.mem e ∧
    entryAddr boot.mem e ≤ b * 4096 ∧ (b + 1) * 4096 ≤ entryAddr boot.mem e + entryLen boot.mem e

/-- The second walk frees what some entry holds, but for the pages of the bitmap. -/
theorem free_freeEntries
    (hinfo : ∀ a, boot.mbInfo ≤ a → a < boot.mbInfo + sizeofInfo → ¬ InBitmapArea boot top a)
    (hfits : (fullBitmap boot top).bitsAddr + (fullBitmap boot top).size < 2 ^ 32)
    {fuel e : Nat} {p : BitmapAllocator} (h : Ready p) (harea : SameArea (fullBitmap boot top) p)
    (hall : ∀ e', VisitedFrom boot.mem boot.mbInfo e e' → EntryOk boot top e')
    {q : BitmapAllocator} (hrun : freeEntries boot fuel p e = some q) (b : Nat) :
    Free q b ↔ Free p b ∨ (∃ e', VisitedFrom boot.mem boot.mbInfo e e' ∧ EntryHolds boot e' b) ∧
      ¬ PageOverlaps b (fullBitmap boot top).bitsAddr (fullBitmap boot top).size := by
  induction fuel generalizing p e with
  | zero => cases hrun
  | succ fuel ih =>
      unfold freeEntries at hrun
      rw [mmapStop_overlay (overlay_same harea hinfo)] at hrun
      split at hrun
      · rename_i hlt
        have he := hall e (.here hlt)
        obtain ⟨hready, harea'⟩ := freeEntry_overlay_keeps h harea he
        have hsize := (entry_overlay (overlay_same harea' he.apart)).1
        obtain ⟨-, htype, haddr, hlen⟩ := entry_overlay (overlay_same harea he.apart)
        have hentry := free_freeEntry h harea hfits (m := overlay p boot.mem) (e := e)
          (by rw [htype, haddr, hlen]; exact he.sum_le)
          (by rw [entryEnd, htype, haddr, hlen, harea.total]; exact he.end_le) b
        rw [htype, haddr, hlen, harea.addr, harea.size] at hentry
        simp only [nextEntry, hsize] at hrun
        rw [ih hready harea' (fun e' hv => hall e' (.next hlt hv)) hrun, hentry]
        constructor
        · rintro ((hb | ⟨hb, hout⟩) | ⟨⟨e', hv, hb⟩, hout⟩)
          · exact Or.inl hb
          · exact Or.inr ⟨⟨e, .here hlt, hb⟩, hout⟩
          · exact Or.inr ⟨⟨e', .next hlt hv, hb⟩, hout⟩
        · rintro (hb | ⟨⟨e', hv, hb⟩, hout⟩)
          · exact Or.inl (Or.inl hb)
          · cases hv with
            | here _ => exact Or.inl (Or.inr ⟨hb, hout⟩)
            | next _ hrest => exact Or.inr ⟨⟨e', hrest, hb⟩, hout⟩
      · rename_i hstop
        cases hrun
        refine (or_iff_left ?_).symm
        rintro ⟨⟨e', hv, -⟩, -⟩
        cases hv with
        | here hlt => exact hstop hlt
        | next hlt _ => exact hstop hlt

end Walk

section Modules

variable {boot : Boot} {top : Nat}

theorem info_overlay {m m' : Mem} {info : Nat} (h : Same m m' info sizeofInfo) :
    infoFlags m' info = infoFlags m info ∧ infoModsCount m' info = infoModsCount m info ∧
      infoModsAddr m' info = infoModsAddr m info ∧ infoMmapLength m' info = infoMmapLength m info ∧
      infoMmapAddr m' info = infoMmapAddr m info := by
  unfold sizeofInfo at h
  unfold infoFlags infoModsCount infoModsAddr infoMmapLength infoMmapAddr
  exact ⟨load32_congr (h.mono le_rfl (by omega)), load32_congr (h.mono (by omega) (by omega)),
    load32_congr (h.mono (by omega) (by omega)), load32_congr (h.mono (by omega) (by omega)),
    load32_congr (h.mono (by omega) (by omega))⟩

/-- The loop over the descriptors, from module `i` on. -/
theorem free_markModulesFrom (hapart : BitmapApart boot top)
    (hflag : infoFlags boot.mem boot.mbInfo / 8 % 2 = 1)
    (hmods : ∀ i, HasModule boot i →
      modStart boot.mem (moduleAt boot i) ≤ modEnd boot.mem (moduleAt boot i))
    (left : Nat) {p : BitmapAllocator} (h : Ready p) (harea : SameArea (fullBitmap boot top) p) (i b : Nat) :
    Free (markModulesFrom boot (infoModsAddr boot.mem boot.mbInfo) left p i) b ↔ Free p b ∧
      ∀ j, i ≤ j → j < i + left → HasModule boot j → ¬ InModule boot j b := by
  induction left generalizing p i with
  | zero => exact (and_iff_left fun j hij hj => absurd hj (by omega)).symm
  | succ left ih =>
      unfold markModulesFrom
      dsimp only
      rw [(info_overlay (overlay_same harea hapart.info)).2.1]
      by_cases hi : i < infoModsCount boot.mem boot.mbInfo
      · have hdesc := overlay_same harea (hapart.modules i ⟨hflag, hi⟩)
        have hstart : modStart (overlay p boot.mem) (moduleAt boot i) = modStart boot.mem (moduleAt boot i) :=
          load32_congr (hdesc.mono le_rfl (by omega))
        have hend : modEnd (overlay p boot.mem) (moduleAt boot i) = modEnd boot.mem (moduleAt boot i) :=
          load32_congr (hdesc.mono (by omega) (by omega))
        have hlt : modStart boot.mem (moduleAt boot i) < 2 ^ 32 := load32_lt _ _
        have hlt' : modEnd boot.mem (moduleAt boot i) < 2 ^ 32 := load32_lt _ _
        rw [if_pos hi]
        change Free (markModulesFrom boot _ left (markRegionAllocated p
          (modStart (overlay p boot.mem) (moduleAt boot i))
          (wsub (modEnd (overlay p boot.mem) (moduleAt boot i))
            (modStart (overlay p boot.mem) (moduleAt boot i)))) (i + 1)) b ↔ _
        rw [hstart, hend, wsub_of_le hlt' (hmods i ⟨hflag, hi⟩)]
        obtain ⟨hready, hsame⟩ := markRegionAllocated_keeps h (modStart boot.mem (moduleAt boot i))
          (modEnd boot.mem (moduleAt boot i) - modStart boot.mem (moduleAt boot i))
        rw [ih hready (harea.trans hsame), free_markRegionAllocated h hlt (by omega), and_assoc]
        refine and_congr_right fun _ => ⟨?_, ?_⟩
        · rintro ⟨hhere, hrest⟩ j hij hj hmod
          by_cases heq : j = i
          · rw [heq]
            exact hhere
          · exact hrest j (by omega) (by omega) hmod
        · intro hall
          exact ⟨hall i le_rfl (by omega) ⟨hflag, hi⟩, fun j hij hj => hall j (by omega) (by omega)⟩
      · rw [if_neg hi]
        refine (and_iff_left fun j hij _ hmod => ?_).symm
        have hlt := hmod.2
        omega

theorem free_markModules (hapart : BitmapApart boot top)
    (hmods : ∀ i, HasModule boot i →
      modStart boot.mem (moduleAt boot i) ≤ modEnd boot.mem (moduleAt boot i))
    {p : BitmapAllocator} (h : Ready p) (harea : SameArea (fullBitmap boot top) p) (b : Nat) :
    Free (markModules boot p) b ↔ Free p b ∧ ¬ ∃ i, HasModule boot i ∧ InModule boot i b := by
  obtain ⟨hflags, -, haddr, -, -⟩ := info_overlay (overlay_same harea hapart.info)
  unfold markModules
  dsimp only
  rw [hflags, haddr]
  by_cases hflag : infoFlags boot.mem boot.mbInfo / 8 % 2 = 1
  · rw [if_pos hflag, free_markModulesFrom hapart hflag hmods (2 ^ 32) h harea]
    refine and_congr_right fun _ => ⟨?_, ?_⟩
    · rintro hall ⟨i, hmod, hin⟩
      have hcount : infoModsCount boot.mem boot.mbInfo < 2 ^ 32 := load32_lt _ _
      have hi := hmod.2
      exact hall i (Nat.zero_le _) (by omega) hmod hin
    · exact fun hnone j _ _ hmod hin => hnone ⟨j, hmod, hin⟩
  · rw [if_neg hflag]
    refine (and_iff_left ?_).symm
    rintro ⟨i, hmod, -⟩
    exact hflag hmod.1

theorem free_reserveBootData (hwords : BootWords boot) (hapart : BitmapApart boot top)
    (hmods : ∀ i, HasModule boot i →
      modStart boot.mem (moduleAt boot i) ≤ modEnd boot.mem (moduleAt boot i))
    {p : BitmapAllocator} (h : Ready p) (harea : SameArea (fullBitmap boot top) p) (b : Nat) :
    Free (reserveBootData boot p) b ↔ Free p b ∧ ¬ PageOverlaps b boot.mbInfo sizeofInfo ∧
      ¬ PageOverlaps b (infoMmapAddr boot.mem boot.mbInfo) (infoMmapLength boot.mem boot.mbInfo) ∧
      (¬ ∃ i, HasModule boot i ∧ InModule boot i b) ∧
      ¬ PageOverlaps b 0x100000 (boot.kernelEnd - 0x100000) := by
  obtain ⟨hinfo, ainfo⟩ := markRegionAllocated_keeps h boot.mbInfo sizeofInfo
  obtain ⟨-, -, -, hlength, haddr⟩ := info_overlay (overlay_same (harea.trans ainfo) hapart.info)
  obtain ⟨hmap, amap⟩ := markRegionAllocated_keeps hinfo (infoMmapAddr boot.mem boot.mbInfo)
    (infoMmapLength boot.mem boot.mbInfo)
  obtain ⟨hmods', -⟩ := markModules_keeps boot hmap
  have hkernel := hwords.kernel
  have haddr32 : infoMmapAddr boot.mem boot.mbInfo < 2 ^ 32 := load32_lt _ _
  have hlength32 : infoMmapLength boot.mem boot.mbInfo < 2 ^ 32 := load32_lt _ _
  unfold reserveBootData
  dsimp only
  rw [haddr, hlength, wsub_of_le hkernel hwords.linked,
    free_markRegionAllocated hmods' (by decide) (by omega),
    free_markModules hapart hmods hmap ((harea.trans ainfo).trans amap),
    free_markRegionAllocated hinfo haddr32 hlength32,
    free_markRegionAllocated h hwords.info (by decide)]
  simp only [and_assoc]

end Modules

theorem not_free_reservedBitmap {boot : Boot} {top : Nat} (htop : top ≤ 2 ^ 32)
    (hfits : (fullBitmap boot top).bitsAddr + (fullBitmap boot top).size < 2 ^ 32) (b : Nat) :
    ¬ Free (reservedBitmap boot top) b := by
  obtain ⟨hlow, alow⟩ := markRegionAllocated_keeps (fullBitmap_ready boot htop) 0 0x100000
  unfold reservedBitmap
  dsimp only
  rw [free_markRegionAllocated hlow (by rw [alow.addr]; omega) (by rw [alow.size]; omega),
    free_markRegionAllocated (fullBitmap_ready boot htop) (by decide) (by decide)]
  rintro ⟨⟨hb, -⟩, -⟩
  have hall : ∀ j < 8, (0xFF#8).getLsbD j = true := by decide
  have hset : bitAt (fullBitmap boot top) b = true := hall (b % 8) (Nat.mod_lt _ (by decide))
  rw [hb.2] at hset
  cases hset

section Init

variable {fuel top : Nat} {boot : Boot} {p : BitmapAllocator}

/-- `pmm_init` has read the map twice and reserved the boot data. -/
theorem pmmInit_cases (hinit : pmmInit fuel boot = some (.ok, p)) :
    ∃ top q, maxAddr boot.mem boot.mbInfo fuel (infoMmapAddr boot.mem boot.mbInfo) 0 = some top ∧
      freeEntries boot fuel (reservedBitmap boot top)
        (infoMmapAddr (overlay (reservedBitmap boot top) boot.mem) boot.mbInfo) = some q ∧
      p = reserveBootData boot q := by
  unfold pmmInit at hinit
  split at hinit
  · cases hinit
  · simp only [Option.bind_eq_bind, Option.bind_eq_some_iff, Option.some.injEq, Prod.mk.injEq,
      true_and] at hinit
    obtain ⟨top, htop, q, hq, rfl⟩ := hinit
    exact ⟨top, q, htop, hq, rfl⟩

/-- The free pages after `pmm_init`. -/
theorem free_pmmInit (hwords : BootWords boot)
    (hbelow : ∀ e, Visited boot e → entryType boot.mem e = 1 →
      entryAddr boot.mem e + entryLen boot.mem e ≤ 2 ^ 32)
    (hmods : ∀ i, HasModule boot i →
      modStart boot.mem (moduleAt boot i) ≤ modEnd boot.mem (moduleAt boot i))
    (hapart : ∀ top, maxAddr boot.mem boot.mbInfo fuel (infoMmapAddr boot.mem boot.mbInfo) 0 = some top →
      BitmapApart boot top)
    (hinit : pmmInit fuel boot = some (.ok, p)) :
    Ready p ∧ ∀ b, Free p b ↔ Usable boot b ∧ ¬ ReservedPage boot p b := by
  obtain ⟨top, q, htop, hq, hp⟩ := pmmInit_cases hinit
  have hap := hapart top htop
  have hle : top ≤ 2 ^ 32 := by
    refine (maxAddr_spec htop).2.2 (2 ^ 32) (by omega) fun e hv htype => ?_
    exact (Nat.mod_le _ _).trans (hbelow e hv htype)
  have hentry : ∀ e, Visited boot e → EntryOk boot top e := by
    refine fun e hv => ⟨hbelow e hv, fun htype => ?_, hap.map e hv⟩
    rw [wrap_of_lt (by omega)]
    exact Nat.div_le_div_right ((maxAddr_spec htop).2.1 e hv htype)
  obtain ⟨hready, harea⟩ := reservedBitmap_keeps boot hle
  rw [(info_overlay (overlay_same harea hap.info)).2.2.2.2] at hq
  obtain ⟨hwalk, awalk⟩ := freeEntries_keeps hap.info hready harea hentry hq
  obtain ⟨hlast, alast⟩ := reserveBootData_keeps boot hwalk
  rw [hp]
  refine ⟨hlast, fun b => ?_⟩
  rw [free_reserveBootData hwords hap hmods hwalk awalk,
    free_freeEntries hap.info hap.fits hready harea hentry hq,
    or_iff_right (not_free_reservedBitmap hle hap.fits b)]
  unfold ReservedPage
  rw [alast.addr, alast.size, awalk.addr, awalk.size]
  have huse : (∃ e', VisitedFrom boot.mem boot.mbInfo (infoMmapAddr boot.mem boot.mbInfo) e' ∧
      EntryHolds boot e' b) ↔ Usable boot b := Iff.rfl
  rw [huse]
  simp only [not_or, and_assoc]

end Init

/-- On a layout whose bitmap stays clear of the boot information, a page below
`total_pages` is free after `pmm_init` if and only if it lies in one available entry above
the first megabyte and touches nothing reserved; the padding bits are set and the counters
agree with the bitmap. -/
theorem pmm_init_exact {fuel : Nat} {boot : Boot} {p : BitmapAllocator} (hwords : BootWords boot)
    (hbelow : ∀ e, Visited boot e → entryAddr boot.mem e + entryLen boot.mem e ≤ 2 ^ 32)
    (hmods : ∀ i, HasModule boot i →
      modStart boot.mem (moduleAt boot i) ≤ modEnd boot.mem (moduleAt boot i))
    (hapart : ∀ top, maxAddr boot.mem boot.mbInfo fuel (infoMmapAddr boot.mem boot.mbInfo) 0 = some top →
      BitmapApart boot top)
    (hinit : pmmInit fuel boot = some (.ok, p)) : BitmapExact boot p := by
  obtain ⟨hready, hfree⟩ := free_pmmInit hwords (fun e hv _ => hbelow e hv) hmods hapart hinit
  rcases hready with hwf | hempty
  · have hcov := hwf.covers
    refine ⟨?_, ?_, hwf.free_count, hwf.used_eq⟩
    · intro page hpage
      rw [bitmapTestBit_false_iff (by omega)]
      exact hfree page
    · intro b hb hbs
      exact testBit_iff.mpr ⟨hbs, fun hclear => absurd (hwf.free_bounds hclear).2 (by omega)⟩
  · refine ⟨?_, ?_, ?_, ?_⟩
    · intro page hpage
      rw [hempty.total] at hpage
      omega
    · intro b _ hbs
      rw [hempty.size] at hbs
      omega
    · rw [hempty.free]
      refine (Finset.card_eq_zero.mpr (Finset.eq_empty_of_forall_notMem fun b hb => ?_)).symm
      exact hempty.not_free b (mem_freeSet.mp hb)
    · rw [hempty.used, hempty.total, hempty.free]

/-- One available entry `[1 MiB, 2 MiB)` at `map`, and a module of one page at `start` with its
descriptor at `mods`. -/
def moduleBoot (info map mods start : Nat) : Boot where
  mem :=
    let m : Mem := fun _ => 0#8
    let m := store32 m info 0x48
    let m := store32 m (info + 20) 1
    let m := store32 m (info + 24) mods
    let m := store32 m (info + 44) 24
    let m := store32 m (info + 48) map
    let m := store32 m map 20
    let m := store32 m (map + 4) 0x100000
    let m := store32 m (map + 12) 0x100000
    let m := store32 m (map + 20) 1
    let m := store32 m mods start
    store32 m (mods + 4) (start + 0x1000)
  mbInfo := info
  kernelEnd := 0x180000

theorem visited_single {boot : Boot} {e e' : Nat} (hstart : infoMmapAddr boot.mem boot.mbInfo = e)
    (hnext : ¬ nextEntry boot.mem e < mmapStop boot.mem boot.mbInfo) (h : Visited boot e') : e' = e := by
  rw [Visited, hstart] at h
  cases h with
  | here _ => rfl
  | next _ hrest =>
      cases hrest with
      | here hlt => exact absurd hlt hnext
      | next hlt _ => exact absurd hlt hnext

theorem moduleBoot_words {info : Nat} (hinfo : info < 2 ^ 32) (map mods start : Nat) :
    BootWords (moduleBoot info map mods start) := by
  have hkernel : 0x180000 < 2 ^ 32 := by decide
  exact ⟨hinfo, hkernel, le_of_lt (by decide : 0x100000 < 0x180000)⟩

def lowBoot : Boot := moduleBoot 0x9000 0x9100 0x9200 0x1C0000

theorem lowBoot_visited {e : Nat} (h : Visited lowBoot e) : e = 0x9100 :=
  visited_single (by decide) (by decide) h

theorem lowBoot_module {i : Nat} (h : HasModule lowBoot i) : i = 0 := by
  have hcount : infoModsCount lowBoot.mem lowBoot.mbInfo = 1 := by decide
  have hmod := h.2
  rwa [hcount, Nat.lt_one_iff] at hmod

theorem lowBoot_apart {fuel top : Nat}
    (htop : maxAddr lowBoot.mem lowBoot.mbInfo fuel (infoMmapAddr lowBoot.mem lowBoot.mbInfo) 0 = some top) :
    BitmapApart lowBoot top := by
  have hle : top ≤ 0x200000 := by
    refine (maxAddr_spec htop).2.2 _ (by omega) fun e hv _ => ?_
    rw [lowBoot_visited hv]
    decide
  have haddr : (fullBitmap lowBoot top).bitsAddr = 0x180000 := rfl
  have hsize : (fullBitmap lowBoot top).size ≤ 0x1000 := by
    have htotal : wrap (top / 4096) = top / 4096 := wrap_of_lt (by omega)
    simp only [fullBitmap, htotal]
    rw [wrap_of_lt (by omega), alignUp_of_lt (by omega)]
    omega
  have hlow : ∀ a, a < 0x180000 → ¬ InBitmapArea lowBoot top a := by
    intro a ha
    rw [InBitmapArea, haddr]
    unfold wsub wrap
    omega
  refine ⟨fun a _ ha => hlow a (lt_trans ha (by decide)), ?_, ?_, by omega⟩
  · intro e hv a _ ha
    rw [lowBoot_visited hv] at ha
    exact hlow a (by omega)
  · intro i hi a _ ha
    rw [lowBoot_module hi] at ha
    exact hlow a (lt_trans ha (by decide))

theorem lowBoot_init : ∃ p, pmmInit 2 lowBoot = some (.ok, p) := by
  have hsome : (pmmInit 2 lowBoot).map Prod.fst = some .ok := by decide +kernel
  obtain ⟨⟨st, p⟩, hinit, rfl⟩ := Option.map_eq_some_iff.mp hsome
  exact ⟨p, hinit⟩

/-- A page behind the module is free, the page of the module is not. -/
theorem pmm_init_exact_low :
    ∃ p, pmmInit 2 lowBoot = some (.ok, p) ∧ BitmapExact lowBoot p ∧
      bitmapTestBit p 0x1C0 = true ∧ bitmapTestBit p 0x1C1 = false := by
  obtain ⟨p, hinit⟩ := lowBoot_init
  have hbits : (pmmInit 2 lowBoot).map (fun r => (bitmapTestBit r.2 0x1C0, bitmapTestBit r.2 0x1C1)) =
      some (true, false) := by decide +kernel
  rw [hinit] at hbits
  obtain ⟨hmodule, hbehind⟩ := Prod.mk.inj (Option.some.inj hbits)
  refine ⟨p, hinit, ?_, hmodule, hbehind⟩
  refine pmm_init_exact (moduleBoot_words (by decide) _ _ _) ?_ ?_ (fun top htop => lowBoot_apart htop) hinit
  · intro e hv
    rw [lowBoot_visited hv]
    decide
  · intro i hi
    rw [lowBoot_module hi]
    decide

/-- The memory map lies right behind the kernel, where the bitmap goes. -/
def coveredBoot : Boot := moduleBoot 0x9000 0x180000 0x9200 0x1C0000

/-- The second walk reads the bitmap instead of the map, and nothing is freed: the last page
below 2 MiB is available and not reserved, but marked. -/
theorem pmm_init_reads_bitmap :
    ¬ ∀ (fuel : Nat) (boot : Boot) (p : BitmapAllocator), BootWords boot →
      (∀ e, Visited boot e → entryAddr boot.mem e + entryLen boot.mem e ≤ 2 ^ 32) →
      (∀ i, HasModule boot i →
        modStart boot.mem (moduleAt boot i) ≤ modEnd boot.mem (moduleAt boot i)) →
      pmmInit fuel boot = some (.ok, p) → BitmapExact boot p := by
  intro h
  have hvisited : ∀ {e}, Visited coveredBoot e → e = 0x180000 := visited_single (by decide) (by decide)
  have hmodule : ∀ {i}, HasModule coveredBoot i → i = 0 := by
    intro i hi
    have hcount : infoModsCount coveredBoot.mem coveredBoot.mbInfo = 1 := by decide
    have hmod := hi.2
    rwa [hcount, Nat.lt_one_iff] at hmod
  have hsome : (pmmInit 10 coveredBoot).map (fun r => (r.1, r.2.bitsAddr, r.2.size, r.2.totalPages,
      bitmapTestBit r.2 0x1FF)) = some (.ok, 0x180000, 0x1000, 0x200, true) := by decide +kernel
  obtain ⟨⟨st, p⟩, hinit, heq⟩ := Option.map_eq_some_iff.mp hsome
  simp only [Prod.mk.injEq] at heq
  obtain ⟨rfl, haddr, hsize, htotal, hset⟩ := heq
  have hexact := h 10 coveredBoot p (moduleBoot_words (by decide) _ _ _)
    (by
      intro e hv
      rw [hvisited hv]
      decide)
    (by
      intro i hi
      rw [hmodule hi]
      decide) hinit
  have husable : Usable coveredBoot 0x1FF := by
    refine ⟨0x180000, ?_, by decide, by decide, by decide, by decide⟩
    exact VisitedFrom.here (by decide)
  have hreserved : ¬ ReservedPage coveredBoot p 0x1FF := by
    rintro (hp | hp | hp | ⟨i, hi, hp⟩ | hp)
    · rw [haddr, hsize] at hp
      exact absurd hp (by decide)
    · exact absurd hp (by decide)
    · exact absurd hp (by decide)
    · rw [hmodule hi, InModule] at hp
      exact absurd hp (by decide)
    · exact absurd hp (by decide)
  have hclear := (hexact.clear 0x1FF (by rw [htotal]; decide)).mpr ⟨husable, hreserved⟩
  rw [hset] at hclear
  cases hclear

end Frostix.Pmm
