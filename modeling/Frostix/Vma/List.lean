import Frostix.Lib.LinkedStore
import Frostix.Vma.Model

/-!
The list of areas. `Listed` ties an address space to the list of its areas: linked
in the store, sorted, page-aligned and disjoint, and counted. The list operations of
the source are described as operations on this list. -/
namespace Frostix.Vma
open Machine32 LinkedStore

variable {σ : Type}

structure Region where
  start : Nat
  stop : Nat
  pgoff : Nat
  flags : Nat

def Region.area (r : Region) (next : Nat) : VmArea := ⟨r.start, r.stop, r.pgoff, r.flags, next⟩

def Region.Valid (r : Region) : Prop :=
  r.start % 4096 = 0 ∧ r.stop % 4096 = 0 ∧ r.start < r.stop ∧ r.stop < 2 ^ 32

/-- The two parts of an area that is split at `addr`. -/
def Region.lower (r : Region) (addr : Nat) : Region := { r with stop := addr }

def Region.upper (r : Region) (addr : Nat) : Region :=
  ⟨addr, r.stop, wrap (r.pgoff + (addr - r.start) / 4096), r.flags⟩

def Region.Overlaps (r q : Region) : Prop := r.start < q.stop ∧ q.start < r.stop

structure Arranged (cs : List (Nat × Region)) : Prop where
  valid : ∀ c ∈ cs, c.2.start < c.2.stop ∧ c.2.stop < 2 ^ 32
  sorted : cs.Pairwise fun c d => c.2.stop ≤ d.2.start

structure Ordered (cs : List (Nat × Region)) : Prop where
  valid : ∀ c ∈ cs, c.2.Valid
  sorted : cs.Pairwise fun c d => c.2.stop ≤ d.2.start

structure Listed (mm : Mm σ) (cs : List (Nat × Region)) : Prop where
  head : mm.mmap = headPtr cs 0
  seg : Seg Region.area mm.areas cs 0
  ordered : Ordered cs
  count : mm.mapCount = cs.length

/-- The same for an address space that lost some of its areas, which it still counts. -/
structure Linked (lost : Nat) (mm : Mm σ) (cs : List (Nat × Region)) : Prop where
  head : mm.mmap = headPtr cs 0
  seg : Seg Region.area mm.areas cs 0
  ordered : Ordered cs
  count : mm.mapCount = wrap (cs.length + lost)

def InAreas (cs : List (Nat × Region)) (x : Nat) : Prop := ∃ c ∈ cs, c.2.start ≤ x ∧ x < c.2.stop

theorem Ordered.arranged {cs : List (Nat × Region)} (h : Ordered cs) : Arranged cs :=
  ⟨fun c hc => (h.valid c hc).2.2, h.sorted⟩

theorem Arranged.ordered {cs : List (Nat × Region)} (h : Arranged cs)
    (haligned : ∀ c ∈ cs, c.2.start % 4096 = 0 ∧ c.2.stop % 4096 = 0) : Ordered cs :=
  ⟨fun c hc => ⟨(haligned c hc).1, (haligned c hc).2, h.valid c hc⟩, h.sorted⟩

theorem Arranged.of_append {xs ys : List (Nat × Region)} (h : Arranged (xs ++ ys)) :
    Arranged xs ∧ Arranged ys ∧ ∀ x ∈ xs, ∀ y ∈ ys, x.2.stop ≤ y.2.start := by
  obtain ⟨hx, hy, hxy⟩ := List.pairwise_append.mp h.sorted
  exact ⟨⟨fun c hc => h.valid c (List.mem_append_left _ hc), hx⟩,
    ⟨fun c hc => h.valid c (List.mem_append_right _ hc), hy⟩, hxy⟩

theorem Arranged.length_lt {cs : List (Nat × Region)} (h : Arranged cs) : cs.length < 2 ^ 32 := by
  suffices hgen : ∀ lo, (∀ c ∈ cs, lo ≤ c.2.start) → lo < 2 ^ 32 → lo + cs.length < 2 ^ 32 by
    have hlen := hgen 0 (fun _ _ => Nat.zero_le _) (Nat.two_pow_pos 32)
    omega
  induction cs with
  | nil =>
      intro lo _ hlo
      simpa using hlo
  | cons c cs ih =>
      intro lo hmin _
      obtain ⟨-, hcs, hcross⟩ := @Arranged.of_append [c] cs h
      obtain ⟨hlt, hmax⟩ := h.valid c List.mem_cons_self
      have hfirst := hmin c List.mem_cons_self
      have hrest := ih hcs c.2.stop (fun d hd => hcross c List.mem_cons_self d hd) hmax
      rw [List.length_cons]
      omega

/-- An area fits between two parts of the list when it fits between their neighbours. -/
theorem Arranged.insert {xs ys : List (Nat × Region)} {p c : Nat × Region}
    (h : Arranged (xs ++ p :: ys)) (hc : c.2.start < c.2.stop ∧ c.2.stop < 2 ^ 32)
    (hlo : p.2.stop ≤ c.2.start) (hhi : ∀ y ∈ ys.head?, c.2.stop ≤ y.2.start) :
    Arranged (xs ++ p :: c :: ys) := by
  obtain ⟨hxs, hpys, hcross⟩ := h.of_append
  obtain ⟨hpy, hys⟩ := List.pairwise_cons.mp hpys.sorted
  have hp := (hpys.valid p List.mem_cons_self).1
  have hcy : ∀ y ∈ ys, c.2.stop ≤ y.2.start := by
    intro y hy
    cases ys with
    | nil => cases hy
    | cons z zs =>
        have hz := hhi z rfl
        have hzv := (hpys.valid z (by simp)).1
        rcases List.mem_cons.mp hy with rfl | hy
        · exact hz
        · have hzy := (List.pairwise_cons.mp hys).1 y hy
          omega
  refine ⟨?_, List.pairwise_append.mpr ⟨hxs.sorted, ?_, ?_⟩⟩
  · intro d hd
    simp only [List.mem_append, List.mem_cons] at hd
    rcases hd with hd | rfl | rfl | hd
    · exact hxs.valid d hd
    · exact hpys.valid d List.mem_cons_self
    · exact hc
    · exact hpys.valid d (List.mem_cons_of_mem _ hd)
  · refine List.pairwise_cons.mpr ⟨?_, List.pairwise_cons.mpr ⟨hcy, hys⟩⟩
    intro d hd
    rcases List.mem_cons.mp hd with rfl | hd
    · exact hlo
    · exact hpy d hd
  · intro x hx d hd
    have hxp := hcross x hx p List.mem_cons_self
    simp only [List.mem_cons] at hd
    rcases hd with rfl | rfl | hd
    · exact hxp
    · omega
    · exact hcross x hx d (List.mem_cons_of_mem _ hd)

theorem Ordered.of_append {xs ys : List (Nat × Region)} (h : Ordered (xs ++ ys)) :
    Ordered xs ∧ Ordered ys ∧ ∀ x ∈ xs, ∀ y ∈ ys, x.2.stop ≤ y.2.start := by
  obtain ⟨hx, hy, hxy⟩ := List.pairwise_append.mp h.sorted
  exact ⟨⟨fun c hc => h.valid c (List.mem_append_left _ hc), hx⟩,
    ⟨fun c hc => h.valid c (List.mem_append_right _ hc), hy⟩, hxy⟩

theorem Ordered.append {xs ys : List (Nat × Region)} (hx : Ordered xs) (hy : Ordered ys)
    (hxy : ∀ x ∈ xs, ∀ y ∈ ys, x.2.stop ≤ y.2.start) : Ordered (xs ++ ys) := by
  refine ⟨?_, List.pairwise_append.mpr ⟨hx.sorted, hy.sorted, hxy⟩⟩
  intro c hc
  rcases List.mem_append.mp hc with h | h
  · exact hx.valid c h
  · exact hy.valid c h

theorem Ordered.sublist {xs ys : List (Nat × Region)} (h : Ordered ys) (hsub : xs.Sublist ys) :
    Ordered xs := ⟨fun c hc => h.valid c (hsub.subset hc), h.sorted.sublist hsub⟩

theorem Ordered.length_lt {cs : List (Nat × Region)} (h : Ordered cs) : cs.length < 2 ^ 21 := by
  suffices hgen : ∀ lo, (∀ c ∈ cs, lo ≤ c.2.start) → lo ≤ 2 ^ 32 → lo + cs.length * 4096 ≤ 2 ^ 32 by
    have hlen := hgen 0 (fun _ _ => Nat.zero_le _) (Nat.zero_le _)
    omega
  induction cs with
  | nil =>
      intro lo _ hlo
      simpa using hlo
  | cons c cs ih =>
      intro lo hmin _
      obtain ⟨hc, hcs, hcross⟩ := @Ordered.of_append [c] cs h
      obtain ⟨ha, hb, hlt, hmax⟩ := h.valid c List.mem_cons_self
      have hfirst := hmin c List.mem_cons_self
      have hrest := ih hcs c.2.stop (fun d hd => hcross c List.mem_cons_self d hd) (by omega)
      rw [List.length_cons]
      omega

theorem Ordered.length_lt_fuel {cs : List (Nat × Region)} (h : Ordered cs) :
    cs.length < listFuel := lt_trans h.length_lt (by decide)

/-- Areas of one address space have different addresses: the same struct would have to
have two different ranges. -/
theorem nodup_of_seg {areas : Nat → Option VmArea} {cs : List (Nat × Region)} {t : Nat}
    (hseg : Seg Region.area areas cs t) (harr : Arranged cs) : (cs.map Prod.fst).Nodup := by
  refine List.pairwise_map.mpr (harr.sorted.imp_of_mem ?_)
  intro c d hc hd hcd heq
  obtain ⟨-, n, hcs⟩ := hseg.mem hc
  obtain ⟨-, k, hds⟩ := hseg.mem hd
  rw [heq, hds] at hcs
  have hstart : d.2.start = c.2.start := congrArg VmArea.vmStart (Option.some.inj hcs)
  have hlt := (harr.valid c hc).1
  omega

theorem Linked.nodup {lost : Nat} {mm : Mm σ} {cs : List (Nat × Region)} (h : Linked lost mm cs) :
    (cs.map Prod.fst).Nodup := nodup_of_seg h.seg h.ordered.arranged

theorem listed_iff {mm : Mm σ} {cs : List (Nat × Region)} : Listed mm cs ↔ Linked 0 mm cs := by
  have hwrap : Ordered cs → wrap (cs.length + 0) = cs.length := fun h => wrap_of_lt h.length_lt_fuel
  constructor
  · exact fun h => ⟨h.head, h.seg, h.ordered, h.count.trans (hwrap h.ordered).symm⟩
  · exact fun h => ⟨h.head, h.seg, h.ordered, h.count.trans (hwrap h.ordered)⟩

theorem seg_unique {areas : Nat → Option VmArea} (cs : List (Nat × Region)) :
    ∀ ds : List (Nat × Region), Seg Region.area areas cs 0 → Seg Region.area areas ds 0 →
      headPtr cs 0 = headPtr ds 0 → cs = ds := by
  induction cs with
  | nil =>
      intro ds _ hd heq
      cases ds with
      | nil => rfl
      | cons d ds => exact absurd heq.symm hd.1
  | cons c cs ih =>
      intro ds hc hd heq
      cases ds with
      | nil => exact absurd heq hc.1
      | cons d ds =>
          have haddr : c.1 = d.1 := heq
          have harea := hc.2.1
          rw [haddr, hd.2.1] at harea
          have hsame := Option.some.inj harea
          obtain ⟨a, r⟩ := c
          obtain ⟨b, q⟩ := d
          simp only [Region.area, VmArea.mk.injEq] at hsame haddr
          obtain ⟨h1, h2, h3, h4, h5⟩ := hsame
          obtain ⟨s, e, p, f⟩ := r
          obtain ⟨s', e', p', f'⟩ := q
          simp only at h1 h2 h3 h4
          subst haddr h1 h2 h3 h4
          rw [ih ds hc.2.2 hd.2.2 h5.symm]

theorem Seg.findFrom_spec {areas : Nat → Option VmArea} (addr : Nat) (cs : List (Nat × Region)) :
    ∀ fuel, Seg Region.area areas cs 0 → cs.length < fuel →
      (findFrom areas addr fuel (headPtr cs 0) = some 0 ∧ ∀ c ∈ cs, c.2.stop ≤ addr) ∨
      ∃ xs c ys, cs = xs ++ c :: ys ∧ (∀ x ∈ xs, x.2.stop ≤ addr) ∧ addr < c.2.stop ∧
        findFrom areas addr fuel (headPtr cs 0) = some c.1 := by
  induction cs with
  | nil =>
      intro fuel _ hfuel
      obtain ⟨k, rfl⟩ := Nat.exists_eq_add_one.mpr (Nat.zero_lt_of_lt hfuel)
      exact Or.inl ⟨rfl, nofun⟩
  | cons c cs ih =>
      intro fuel hseg hfuel
      obtain ⟨k, rfl⟩ := Nat.exists_eq_add_one.mpr (Nat.zero_lt_of_lt hfuel)
      obtain ⟨hne, hc, hcs⟩ := hseg
      have hstep : findFrom areas addr (k + 1) c.1 =
          if addr < c.2.stop then some c.1 else findFrom areas addr k (headPtr cs 0) := by
        rw [findFrom, if_neg hne, hc]
        rfl
      change (findFrom areas addr (k + 1) c.1 = some 0 ∧ _) ∨ _
      by_cases hhit : addr < c.2.stop
      · rw [if_pos hhit] at hstep
        exact Or.inr ⟨[], c, cs, rfl, nofun, hhit, hstep⟩
      · rw [if_neg hhit] at hstep
        rcases ih k hcs (by simpa using hfuel) with ⟨hnone, hall⟩ | ⟨xs, d, ys, rfl, hxs, hd, hsome⟩
        · refine Or.inl ⟨hstep.trans hnone, ?_⟩
          intro x hx
          rcases List.mem_cons.mp hx with rfl | hx
          · omega
          · exact hall x hx
        · refine Or.inr ⟨c :: xs, d, ys, rfl, ?_, hd, hstep.trans hsome⟩
          intro x hx
          rcases List.mem_cons.mp hx with rfl | hx
          · omega
          · exact hxs x hx

/-- The address of the last area, or `p` when there is none. -/
def lastPtr (p : Nat) : List (Nat × Region) → Nat
  | [] => p
  | c :: cs => lastPtr c.1 cs

theorem lastPtr_append (p : Nat) (xs ys : List (Nat × Region)) :
    lastPtr p (xs ++ ys) = lastPtr (lastPtr p xs) ys := by
  induction xs generalizing p with
  | nil => rfl
  | cons x xs ih => exact ih x.1

/-- The walk of `insert_vm_struct` stops between the areas that start below `start` and
the others. -/
theorem Seg.insertFrom_spec {areas : Nat → Option VmArea} (start : Nat) (cs : List (Nat × Region)) :
    ∀ fuel prev, Seg Region.area areas cs 0 → cs.length < fuel →
      ∃ xs ys, cs = xs ++ ys ∧ (∀ x ∈ xs, x.2.start < start) ∧ (∀ y ∈ ys.head?, start ≤ y.2.start) ∧
        insertFrom areas start fuel prev (headPtr cs 0) = some (lastPtr prev xs, headPtr ys 0) := by
  induction cs with
  | nil =>
      intro fuel prev _ hfuel
      obtain ⟨k, rfl⟩ := Nat.exists_eq_add_one.mpr (Nat.zero_lt_of_lt hfuel)
      exact ⟨[], [], rfl, nofun, nofun, rfl⟩
  | cons c cs ih =>
      intro fuel prev hseg hfuel
      obtain ⟨k, rfl⟩ := Nat.exists_eq_add_one.mpr (Nat.zero_lt_of_lt hfuel)
      obtain ⟨hne, hc, hcs⟩ := hseg
      have hstep : insertFrom areas start (k + 1) prev c.1 =
          if c.2.start < start then insertFrom areas start k c.1 (headPtr cs 0)
          else some (prev, c.1) := by
        rw [insertFrom, if_neg hne, hc]
        rfl
      by_cases hlt : c.2.start < start
      · rw [if_pos hlt] at hstep
        obtain ⟨xs, ys, rfl, hxs, hys, hrun⟩ := ih k c.1 hcs (by simpa using hfuel)
        refine ⟨c :: xs, ys, rfl, ?_, hys, hstep.trans hrun⟩
        intro x hx
        rcases List.mem_cons.mp hx with rfl | hx
        · exact hlt
        · exact hxs x hx
      · rw [if_neg hlt] at hstep
        refine ⟨[], c :: cs, rfl, nofun, ?_, hstep⟩
        intro y hy
        cases hy
        omega

end Frostix.Vma
