import Frostix.Vma.Ops

/-!
`unmapped_area` as a first-fit search on the list of areas. A room that exists is found, and
the lowest one. Without a room the search can still return an address: the gap before the
first area is not compared with the end of the window, and the sums wrap. -/
namespace Frostix.Vma
open Machine32 LinkedStore

variable {σ : Type}

def roundUp (n : Nat) : Nat := (n + 4095) / 4096 * 4096

/-- A place for `need` bytes at or above `lo`: page-aligned, in the window and free. -/
def RoomFrom (cs : List (Nat × Region)) (need lo a : Nat) : Prop :=
  a % 4096 = 0 ∧ lo ≤ a ∧ a + need < searchEnd ∧ ∀ c ∈ cs, a + need ≤ c.2.start ∨ c.2.stop ≤ a

/-- A place for `len` bytes in the search window. -/
def Room (cs : List (Nat × Region)) (len a : Nat) : Prop := RoomFrom cs (roundUp len) searchStart a

/-- The search returns the lowest room, and 0 if and only if there is none. -/
def FindsLowest (mm : Mm σ) (cs : List (Nat × Region)) (len : Nat) : Prop :=
  ∃ a, unmappedArea mm len = some a ∧ (a ≠ 0 → IsLeast {b | Room cs len b} a) ∧ (a = 0 ↔ ∀ b, ¬ Room cs len b)

/-- The first area starts below the end of a range at the start of the window, and after one
of the areas the end of the range as a 32-bit word is not below the end of the window. -/
def RunsOut (cs : List (Nat × Region)) (need : Nat) : Prop :=
  (∀ c ∈ cs.head?, c.2.start < searchStart + need) ∧
    ((cs = [] ∧ searchEnd ≤ wrap (searchStart + need)) ∨
      ∃ c ∈ cs, searchEnd ≤ wrap (max searchStart c.2.stop + need))

/-- When the search does what it promises: there is a room; or the length is below 4 GiB and
the search runs out; or it is not, and the areas cover the window. -/
def SearchHolds (cs : List (Nat × Region)) (len : Nat) : Prop :=
  (∃ a, Room cs len a) ∨ (roundUp len < 2 ^ 32 ∧ RunsOut cs (roundUp len)) ∨
    (roundUp len = 2 ^ 32 ∧ ∀ x, searchStart ≤ x → x < searchEnd → InAreas cs x)

/-- The walk of `unmapped_area` over the list of areas. -/
def scan (need : Nat) : List (Nat × Region) → Nat → Nat
  | [], addr => if wrap (addr + need) < searchEnd then addr else 0
  | c :: cs, addr =>
      if addr < c.2.start ∧ addr + need ≤ c.2.start then addr
      else if searchEnd ≤ wrap (max addr c.2.stop + need) then 0
      else scan need cs (max addr c.2.stop)

section Scan

variable {cs : List (Nat × Region)} {c : Nat × Region} {need lo addr a : Nat}

theorem alignUp_aligned (halign : a % 4096 = 0) (hlt : a < 2 ^ 32) : alignUp a 4096 = a := by
  rw [alignUp_of_lt (by omega)]
  omega

/-- The walk through the structs is the walk over the list. -/
theorem Seg.unmappedFrom_scan {areas : Nat → Option VmArea} (need : Nat) (cs : List (Nat × Region)) :
    ∀ fuel addr, Seg Region.area areas cs 0 → Ordered cs → cs.length < fuel →
      unmappedFrom areas need fuel (headPtr cs 0) addr = some (scan need cs addr) := by
  induction cs with
  | nil =>
      intro fuel addr _ _ hfuel
      obtain ⟨k, rfl⟩ := Nat.exists_eq_add_one.mpr (Nat.zero_lt_of_lt hfuel)
      rw [headPtr, unmappedFrom, if_pos rfl, scan]
  | cons c cs ih =>
      intro fuel addr hseg hord hfuel
      obtain ⟨k, rfl⟩ := Nat.exists_eq_add_one.mpr (Nat.zero_lt_of_lt hfuel)
      obtain ⟨hne, hc, hcs⟩ := hseg
      obtain ⟨hstart, hstop, hlt, hmax⟩ := hord.valid c List.mem_cons_self
      have hrest := ih k (max addr c.2.stop) hcs (@Ordered.of_append [c] cs hord).2.1 (by simpa using hfuel)
      have hnext : (if addr < c.2.stop then alignUp c.2.stop 4096 else addr) = max addr c.2.stop := by
        rw [alignUp_aligned hstop hmax]
        split_ifs with hbelow
        · exact (max_eq_right hbelow.le).symm
        · exact (max_eq_left (not_lt.mp hbelow)).symm
      have hgap : (addr < c.2.start ∧ addr ≤ c.2.start ∧ need ≤ wsub c.2.start addr) ↔
          addr < c.2.start ∧ addr + need ≤ c.2.start := by
        refine and_congr_right fun hbelow => ?_
        rw [wsub_of_le (by omega) hbelow.le]
        omega
      rw [headPtr, unmappedFrom, if_neg hne, hc, scan]
      simp only [Option.bind_eq_bind, Option.bind_some, Region.area, hgap, hnext, hrest]
      split_ifs
      · rfl
      · rfl
      · rfl

theorem Listed.unmappedArea_scan {mm : Mm σ} (hl : Listed mm cs) {len : Nat} (hpos : len ≠ 0) :
    unmappedArea mm len = some (scan (alignUp len 4096) cs searchStart) := by
  rw [unmappedArea, if_neg hpos, hl.head]
  cases cs with
  | nil =>
      rw [headPtr, if_pos rfl]
      rfl
  | cons c cs =>
      rw [if_neg hl.seg.headPtr_ne_zero]
      exact Seg.unmappedFrom_scan _ _ _ _ hl.seg hl.ordered hl.ordered.length_lt_fuel

theorem roomFrom_cons (hpos : 0 < need) (hgap : ¬ (addr < c.2.start ∧ addr + need ≤ c.2.start)) :
    RoomFrom (c :: cs) need addr a ↔ RoomFrom cs need (max addr c.2.stop) a := by
  constructor
  · rintro ⟨halign, hlo, hend, hfree⟩
    refine ⟨halign, max_le hlo ?_, hend, fun d hd => hfree d (List.mem_cons_of_mem _ hd)⟩
    rcases hfree c List.mem_cons_self with hbefore | hbehind
    · exact absurd ⟨by omega, by omega⟩ hgap
    · exact hbehind
  · rintro ⟨halign, hlo, hend, hfree⟩
    obtain ⟨hlo, hstop⟩ := max_le_iff.mp hlo
    refine ⟨halign, hlo, hend, fun d hd => ?_⟩
    rcases List.mem_cons.mp hd with rfl | hd
    · exact Or.inr hstop
    · exact hfree d hd

theorem room_of_gap (hord : Ordered cs) (halign : addr % 4096 = 0) (hend : addr + need < searchEnd)
    (hgap : ∀ d ∈ cs.head?, addr + need ≤ d.2.start) : RoomFrom cs need addr addr := by
  refine ⟨halign, le_rfl, hend, fun d hd => Or.inl ?_⟩
  cases cs with
  | nil => cases hd
  | cons c cs =>
      have hc := hgap c rfl
      rcases List.mem_cons.mp hd with rfl | hd
      · exact hc
      · have hvalid := (hord.valid c List.mem_cons_self).2.2.1
        have hnext := (List.pairwise_cons.mp hord.sorted).1 d hd
        omega

theorem wrap_of_window {n : Nat} (h : n < searchEnd) : wrap n = n :=
  wrap_of_lt (lt_trans h (by decide))

/-- A room that exists is found, the lowest one first. -/
theorem scan_isLeast (hpos : 0 < need) (cs : List (Nat × Region)) :
    ∀ addr, Ordered cs → addr % 4096 = 0 → (∃ a, RoomFrom cs need addr a) →
      IsLeast {b | RoomFrom cs need addr b} (scan need cs addr) := by
  induction cs with
  | nil =>
      rintro addr hord halign ⟨a, -, hlo, hend, -⟩
      have hfit : addr + need < searchEnd := by omega
      rw [scan, wrap_of_window hfit, if_pos hfit]
      exact ⟨room_of_gap hord halign hfit nofun, fun b hb => hb.2.1⟩
  | cons c cs ih =>
      rintro addr hord halign ⟨a, hroom⟩
      have hfit : addr + need < searchEnd := by
        have hlo := hroom.2.1
        have hend := hroom.2.2.1
        omega
      rw [scan]
      by_cases hgap : addr < c.2.start ∧ addr + need ≤ c.2.start
      · rw [if_pos hgap]
        refine ⟨room_of_gap hord halign hfit fun d hd => ?_, fun b hb => hb.2.1⟩
        cases hd
        exact hgap.2
      · rw [if_neg hgap]
        have hstop := (hord.valid c List.mem_cons_self).2.1
        have hnext : max addr c.2.stop % 4096 = 0 := by
          rcases max_choice addr c.2.stop with h | h
          · rwa [h]
          · rwa [h]
        have hroom' := (roomFrom_cons hpos hgap).mp hroom
        have hfit' : max addr c.2.stop + need < searchEnd :=
          lt_of_le_of_lt (Nat.add_le_add_right hroom'.2.1 _) hroom'.2.2.1
        rw [wrap_of_window hfit', if_neg (not_le.mpr hfit')]
        simp only [roomFrom_cons hpos hgap]
        exact ih _ (@Ordered.of_append [c] cs hord).2.1 hnext ⟨a, hroom'⟩

/-- Without a room and without a gap before the first area, the search fails when the test of
the end of the window does so after one of the areas. -/
theorem scan_eq_zero_iff (hpos : 0 < need) (cs : List (Nat × Region)) :
    ∀ addr, 0 < addr → addr % 4096 = 0 → Ordered cs → (∀ a, ¬ RoomFrom cs need addr a) →
      (∀ c ∈ cs.head?, ¬ addr + need ≤ c.2.start) →
      (scan need cs addr = 0 ↔ (cs = [] ∧ searchEnd ≤ wrap (addr + need)) ∨
        ∃ c ∈ cs, searchEnd ≤ wrap (max addr c.2.stop + need)) := by
  induction cs with
  | nil =>
      intro addr haddr _ _ _ _
      rw [scan]
      split_ifs with hend
      · simp [haddr.ne', hend]
      · simp [not_lt.mp hend]
  | cons c cs ih =>
      intro addr haddr halign hord hnone hnogap
      have hgap : ¬ (addr < c.2.start ∧ addr + need ≤ c.2.start) := fun h => hnogap c rfl h.2
      rw [scan, if_neg hgap]
      split_ifs with hend
      · exact iff_of_true rfl (Or.inr ⟨c, List.mem_cons_self, hend⟩)
      · have hvalid := hord.valid c List.mem_cons_self
        have hcs := (@Ordered.of_append [c] cs hord).2.1
        have hnext : max addr c.2.stop % 4096 = 0 := by
          rcases max_choice addr c.2.stop with h | h
          · rwa [h]
          · rw [h]
            exact hvalid.2.1
        have hnone' : ∀ a, ¬ RoomFrom cs need (max addr c.2.stop) a := fun a ha =>
          hnone a ((roomFrom_cons hpos hgap).mpr ha)
        -- a gap behind this area would be a room: its end is below the end of the window
        have hnogap' : ∀ d ∈ cs.head?, ¬ max addr c.2.stop + need ≤ d.2.start := by
          intro d hd hle
          have hdmax := hcs.valid d (List.mem_of_mem_head? hd)
          have hfit : max addr c.2.stop + need < searchEnd := by
            rw [wrap_of_lt (by have := hdmax.2.2.1; have := hdmax.2.2.2; omega)] at hend
            exact not_le.mp hend
          refine hnone' _ (room_of_gap hcs hnext hfit fun e he => ?_)
          cases Option.mem_unique hd he
          exact hle
        rw [ih _ (lt_of_lt_of_le haddr (le_max_left _ _)) hnext hcs hnone' hnogap']
        have hmax : ∀ d ∈ cs, max (max addr c.2.stop) d.2.stop = max addr d.2.stop := by
          intro d hd
          have hcd := (List.pairwise_cons.mp hord.sorted).1 d hd
          have hdv := (hcs.valid d hd).2.2.1
          omega
        constructor
        · rintro (⟨-, hlast⟩ | ⟨d, hd, hlast⟩)
          · exact absurd hlast hend
          · rw [hmax d hd] at hlast
            exact Or.inr ⟨d, List.mem_cons_of_mem _ hd, hlast⟩
        · rintro (⟨hnil, -⟩ | ⟨d, hd, hlast⟩)
          · cases hnil
          · rcases List.mem_cons.mp hd with rfl | hd
            · exact absurd hlast hend
            · rw [← hmax d hd] at hlast
              exact Or.inr ⟨d, hd, hlast⟩

theorem scan_gap (hgap : ∃ c ∈ cs.head?, addr + need ≤ c.2.start) (hpos : 0 < need) :
    scan need cs addr = addr := by
  obtain ⟨c, hc, hle⟩ := hgap
  cases cs with
  | nil => cases hc
  | cons d ds =>
      cases hc
      rw [scan, if_pos ⟨by omega, hle⟩]

theorem inAreas_cons_behind (hord : Ordered (c :: cs)) {x : Nat} (hx : c.2.stop ≤ x) :
    InAreas (c :: cs) x ↔ InAreas cs x := by
  constructor
  · rintro ⟨d, hd, hge, hlt⟩
    rcases List.mem_cons.mp hd with rfl | hd
    · omega
    · exact ⟨d, hd, hge, hlt⟩
  · rintro ⟨d, hd, hge, hlt⟩
    exact ⟨d, List.mem_cons_of_mem _ hd, hge, hlt⟩

/-- Rounded up to 0, the search fails when every address of the window is taken. -/
theorem scan_zero_iff (cs : List (Nat × Region)) :
    ∀ addr, 0 < addr → addr < searchEnd → Ordered cs →
      (scan 0 cs addr = 0 ↔ ∀ x, addr ≤ x → x < searchEnd → InAreas cs x) := by
  induction cs with
  | nil =>
      intro addr haddr hend _
      rw [scan, Nat.add_zero, wrap_of_window hend, if_pos hend]
      refine iff_of_false haddr.ne' fun hall => ?_
      obtain ⟨c, hc, -⟩ := hall addr le_rfl hend
      cases hc
  | cons c cs ih =>
      intro addr haddr hend hord
      have hvalid := hord.valid c List.mem_cons_self
      have hbehind := (List.pairwise_cons.mp hord.sorted).1
      rw [scan, Nat.add_zero, Nat.add_zero]
      by_cases hgap : addr < c.2.start
      · rw [if_pos ⟨hgap, hgap.le⟩]
        refine iff_of_false haddr.ne' fun hall => ?_
        obtain ⟨d, hd, hge, -⟩ := hall addr le_rfl hend
        rcases List.mem_cons.mp hd with rfl | hd
        · omega
        · have hcd := hbehind d hd
          have hlt := hvalid.2.2.1
          omega
      · rw [if_neg fun h => hgap h.1, wrap_of_lt (max_lt (lt_trans hend (by decide)) hvalid.2.2.2)]
        by_cases hlast : searchEnd ≤ max addr c.2.stop
        · rw [if_pos hlast]
          refine iff_of_true rfl fun x hlo hhi => ⟨c, List.mem_cons_self, by omega, ?_⟩
          rcases le_max_iff.mp hlast with h | h
          · omega
          · omega
        · rw [if_neg hlast, ih _ (lt_of_lt_of_le haddr (le_max_left _ _)) (not_le.mp hlast)
            (@Ordered.of_append [c] cs hord).2.1]
          constructor
          · intro hall x hlo hhi
            by_cases hx : x < c.2.stop
            · exact ⟨c, List.mem_cons_self, by omega, hx⟩
            · exact (inAreas_cons_behind hord (not_lt.mp hx)).mpr (hall x (max_le hlo (not_lt.mp hx)) hhi)
          · intro hall x hlo hhi
            obtain ⟨hlo, hstop⟩ := max_le_iff.mp hlo
            exact (inAreas_cons_behind hord hstop).mp (hall x hlo hhi)

end Scan

section Search

variable {mm : Mm σ} {cs : List (Nat × Region)} {len : Nat}

theorem roundUp_pos (hpos : 0 < len) : 0 < roundUp len := by
  unfold roundUp
  omega

theorem roundUp_le (hlen : len < 2 ^ 32) : roundUp len ≤ 2 ^ 32 := by
  unfold roundUp
  omega

theorem alignUp_roundUp (h : roundUp len < 2 ^ 32) : alignUp len 4096 = roundUp len := by
  unfold roundUp at h
  exact alignUp_of_lt (by omega)

theorem alignUp_full (hlen : len < 2 ^ 32) (h : roundUp len = 2 ^ 32) : alignUp len 4096 = 0 := by
  unfold roundUp at h
  have hlo : 2 ^ 32 ≤ len + (4096 - 1) := by omega
  rw [alignUp, wrap, Nat.mod_eq_sub_mod hlo, Nat.mod_eq_of_lt (by omega), Nat.div_eq_of_lt (by omega),
    Nat.zero_mul]

theorem searchStart_pos : 0 < searchStart := by decide

theorem findsLowest_iff_of_none {a : Nat} (hrun : unmappedArea mm len = some a) (hnone : ∀ b, ¬ Room cs len b) :
    FindsLowest mm cs len ↔ a = 0 := by
  constructor
  · rintro ⟨b, hb, -, hzero⟩
    cases hrun.symm.trans hb
    exact hzero.mpr hnone
  · intro hzero
    exact ⟨a, hrun, fun hne => absurd hzero hne, iff_of_true hzero hnone⟩

/-- The search returns the lowest room, and 0 exactly when there is none, if and only if there
is a room, or the search runs out, or for a length of 4 GiB the window is covered. -/
theorem unmapped_area_finds_lowest_iff (hl : Listed mm cs) (hpos : 0 < len) (hlen : len < 2 ^ 32) :
    FindsLowest mm cs len ↔ SearchHolds cs len := by
  have hrun := hl.unmappedArea_scan hpos.ne'
  have hneed := roundUp_pos hpos
  by_cases hroom : ∃ a, Room cs len a
  · refine iff_of_true ?_ (Or.inl hroom)
    obtain ⟨a, ha⟩ := hroom
    have hsmall : roundUp len < 2 ^ 32 := by
      have hend := ha.2.2.1
      unfold searchEnd at hend
      omega
    have hleast := scan_isLeast hneed cs searchStart hl.ordered (by decide) ⟨a, ha⟩
    rw [alignUp_roundUp hsmall] at hrun
    refine ⟨_, hrun, fun _ => hleast, iff_of_false ?_ fun hnone => hnone a ha⟩
    have hge := hleast.1.2.1
    have hstart := searchStart_pos
    omega
  · have hnone : ∀ b, ¬ Room cs len b := fun b hb => hroom ⟨b, hb⟩
    rw [findsLowest_iff_of_none hrun hnone, SearchHolds, or_iff_right hroom]
    rcases lt_or_eq_of_le (roundUp_le hlen) with hsmall | hfull
    · rw [alignUp_roundUp hsmall, or_iff_left fun h => hsmall.ne h.1, and_iff_right hsmall, RunsOut]
      by_cases hgap : ∃ c ∈ cs.head?, searchStart + roundUp len ≤ c.2.start
      · rw [scan_gap hgap hneed]
        obtain ⟨c, hc, hle⟩ := hgap
        exact iff_of_false searchStart_pos.ne' fun h => absurd (h.1 c hc) (not_lt.mpr hle)
      · have hnogap : ∀ c ∈ cs.head?, ¬ searchStart + roundUp len ≤ c.2.start :=
          fun c hc hle => hgap ⟨c, hc, hle⟩
        rw [scan_eq_zero_iff hneed cs searchStart searchStart_pos (by decide) hl.ordered hnone hnogap]
        exact (and_iff_right fun c hc => not_le.mp (hnogap c hc)).symm
    · rw [alignUp_full hlen hfull, scan_zero_iff cs searchStart searchStart_pos (by decide) hl.ordered]
      constructor
      · exact fun hall => Or.inr ⟨hfull, hall⟩
      · rintro (⟨hsmall, -⟩ | ⟨-, hall⟩)
        · exact absurd hfull hsmall.ne
        · exact hall

end Search

def emptySpace : Mm Unit := ⟨8, fun _ => none, 0, 0, ()⟩

theorem emptySpace_listed : Listed emptySpace [] := ⟨rfl, trivial, ⟨nofun, List.Pairwise.nil⟩, rfl⟩

/-- Two areas at the start of the window, with one page between them. -/
def pagesApart : List (Nat × Region) :=
  [(16, ⟨0x20000000, 0x20001000, 0x20000, 19⟩), (32, ⟨0x20002000, 0x20003000, 0x20002, 19⟩)]

def apartSpace : Mm Unit :=
  ⟨8, fun a =>
    if a = 16 then some (Region.area ⟨0x20000000, 0x20001000, 0x20000, 19⟩ 32)
    else if a = 32 then some (Region.area ⟨0x20002000, 0x20003000, 0x20002, 19⟩ 0)
    else none,
    16, 2, ()⟩

theorem apartSpace_listed : Listed apartSpace pagesApart := by
  refine ⟨rfl, ⟨by decide, rfl, by decide, rfl, trivial⟩, ⟨?_, ?_⟩, rfl⟩
  · intro c hc
    simp only [pagesApart, List.mem_cons, List.not_mem_nil, or_false] at hc
    rcases hc with rfl | rfl <;> exact ⟨by decide, by decide, by decide, by decide⟩
  · simp [pagesApart]

/-- One page goes between the two areas. -/
theorem unmapped_area_finds_page :
    FindsLowest apartSpace pagesApart 1 ∧ unmappedArea apartSpace 1 = some 0x20001000 := by
  refine ⟨(unmapped_area_finds_lowest_iff apartSpace_listed (by decide) (by decide)).mpr
    (Or.inl ⟨0x20001000, ?_⟩), by decide⟩
  exact ⟨by decide, by decide, by decide, by decide⟩

/-- 3.5 GiB do not fit in the window, and the sum wraps to 0. -/
theorem unmapped_area_wraps :
    ¬ ∀ (mm : Mm Unit) (cs : List (Nat × Region)) (len : Nat), Listed mm cs → 0 < len → len < 2 ^ 32 →
      FindsLowest mm cs len := by
  intro h
  obtain ⟨a, hrun, hleast, -⟩ := h emptySpace [] 0xE0000000 emptySpace_listed (by decide) (by decide)
  have hresult : unmappedArea emptySpace 0xE0000000 = some searchStart := by decide
  cases hresult.symm.trans hrun
  have hend := (hleast (by decide)).1.2.2.1
  exact absurd hend (by decide)

end Frostix.Vma
