import Frostix.Vma.List

/-!
`insert_vm_struct` on every sorted list of disjoint areas, page-aligned or not. It works
unless the area belongs before the first one: then it is linked and compared with itself. -/
namespace Frostix.Vma
open Machine32 LinkedStore

variable {σ : Type}

/-- The new struct is linked in behind the known part `xs` of the list. -/
structure Inserted (mm mm' : Mm σ) (xs ys : List (Nat × Region)) (c : Nat × Region) : Prop where
  head : mm'.mmap = headPtr (xs ++ c :: ys) 0
  seg : Seg Region.area mm'.areas (xs ++ c :: ys) 0
  arranged : Arranged (xs ++ c :: ys)
  count : mm'.mapCount = wrap (mm.mapCount + 1)
  self : mm'.self = mm.self
  env : mm'.env = mm.env
  structs : ∀ a, mm'.areas a = none ↔ mm.areas a = none

/-- What `insert_vm_struct` returns and leaves behind. -/
inductive InsertResult (mm : Mm σ) (cs : List (Nat × Region)) (vma : Nat) (r : Region) : Bool → Mm σ → Prop
  | empty : r.stop ≤ r.start → InsertResult mm cs vma r false mm
  | overlap (c : Nat × Region) : c ∈ cs → r.start < r.stop → r.Overlaps c.2 → InsertResult mm cs vma r false mm
  | before (c : Nat × Region) (rest : List (Nat × Region)) : cs = c :: rest → r.start < r.stop →
      r.stop ≤ c.2.start →
      InsertResult mm cs vma r false { mm with
        areas := Function.update mm.areas vma (some (r.area mm.mmap))
        mmap := vma }
  | done (xs ys : List (Nat × Region)) (mm' : Mm σ) : cs = xs ++ ys → (xs = [] → ys = []) → r.start < r.stop →
      Inserted mm mm' xs ys (vma, r) → InsertResult mm cs vma r true mm'

theorem update_none_iff {areas : Nat → Option VmArea} {a : Nat} {x y : VmArea}
    (ha : areas a = some y) (b : Nat) :
    Function.update areas a (some x) b = none ↔ areas b = none := by
  by_cases hb : b = a
  · subst hb
    simp [ha]
  · rw [Function.update_of_ne hb]

theorem Seg.startsBelow_spec {areas : Nat → Option VmArea} {ys : List (Nat × Region)} (stop : Nat)
    (h : Seg Region.area areas ys 0) :
    startsBelow areas (headPtr ys 0) stop = some (ys.head?.any fun y => decide (y.2.start < stop)) := by
  cases ys with
  | nil => rfl
  | cons y ys =>
      rw [startsBelow, if_neg h.headPtr_ne_zero, headPtr, h.2.1]
      rfl

section Insert

variable {mm : Mm σ} {cs : List (Nat × Region)} {vma next : Nat} {r : Region}

theorem insert_first {c : Nat × Region} {rest : List (Nat × Region)} (hhead : mm.mmap = c.1)
    (hseg : Seg Region.area mm.areas (c :: rest) 0) (harr : Arranged (c :: rest))
    (harea : mm.areas vma = some (r.area next)) (hr : r.start < r.stop) (hle : r.start ≤ c.2.start)
    (hwalk : insertFrom mm.areas r.start listFuel 0 mm.mmap = some (0, c.1)) :
    ∃ mm', insertVmStruct mm vma = some (false, mm') ∧ InsertResult mm (c :: rest) vma r false mm' := by
  obtain ⟨hcne, hcval, -⟩ := hseg
  have hc := (harr.valid c List.mem_cons_self).1
  unfold insertVmStruct
  rw [harea]
  simp only [Option.bind_eq_bind, Option.bind_some, Region.area]
  rw [if_neg (not_le.mpr hr), if_neg (by rw [hhead]; exact hcne), hwalk]
  simp only [Option.bind_some, if_true, hcval, Region.area]
  by_cases hover : c.2.start < r.stop
  · rw [if_pos hover]
    exact ⟨mm, rfl, .overlap c List.mem_cons_self hr ⟨lt_of_le_of_lt hle hc, hover⟩⟩
  · -- the head of the list is the area itself by now
    rw [if_neg hover, Function.update_self]
    simp only [Option.bind_some]
    rw [if_pos hr]
    exact ⟨_, rfl, .before c rest rfl hr (not_lt.mp hover)⟩

/-- Something starts below the new area; `p` is the last of them. -/
theorem insert_behind {xs ys : List (Nat × Region)} {p : Nat × Region}
    (hhead : mm.mmap = headPtr (xs ++ p :: ys) 0) (hseg : Seg Region.area mm.areas (xs ++ p :: ys) 0)
    (harr : Arranged (xs ++ p :: ys)) (hvma : vma ≠ 0) (hnew : vma ∉ (xs ++ p :: ys).map Prod.fst)
    (harea : mm.areas vma = some (r.area next)) (hr : r.start < r.stop) (hmax : r.stop < 2 ^ 32)
    (hbelow : p.2.start < r.start) (habove : ∀ y ∈ ys.head?, r.start ≤ y.2.start)
    (hwalk : insertFrom mm.areas r.start listFuel 0 mm.mmap = some (p.1, headPtr ys 0)) :
    ∃ ok mm', insertVmStruct mm vma = some (ok, mm') ∧ InsertResult mm (xs ++ p :: ys) vma r ok mm' := by
  have hnodup := nodup_of_seg hseg harr
  obtain ⟨-, hpne, hpval, hys⟩ := Seg.append.mp hseg
  have hmmap : mm.mmap ≠ 0 := by
    rw [hhead, headPtr_append]
    cases xs with
    | nil => exact hpne
    | cons x xs => exact (Seg.append.mp hseg).1.1
  have hcur := Seg.startsBelow_spec r.stop hys
  unfold insertVmStruct
  rw [harea]
  simp only [Option.bind_eq_bind, Option.bind_some, Region.area]
  rw [if_neg (not_le.mpr hr), if_neg hmmap, hwalk]
  simp only [Option.bind_some, if_neg hpne, hpval, Region.area, hcur]
  by_cases hover : r.start < p.2.stop
  · rw [if_pos hover]
    exact ⟨_, mm, rfl, .overlap p (by simp) hr ⟨hover, lt_trans hbelow hr⟩⟩
  rw [if_neg hover]
  by_cases hany : (ys.head?.any fun y => decide (y.2.start < r.stop)) = true
  · rw [if_pos hany]
    obtain ⟨y, hy, hlt⟩ := (Option.any_eq_true _ _).mp hany
    have hmem : y ∈ xs ++ p :: ys := by simp [List.mem_of_mem_head? hy]
    have hstart := habove y hy
    have hvalid := (harr.valid y hmem).1
    exact ⟨_, mm, rfl, .overlap y hmem hr ⟨by omega, of_decide_eq_true hlt⟩⟩
  rw [if_neg hany]
  have hvp : p.1 ≠ vma := by
    rintro rfl
    exact hnew (by simp)
  refine ⟨_, _, rfl, .done (xs ++ [p]) ys _ (by simp) (by simp) hr ⟨?_, ?_, ?_, rfl, rfl, rfl, ?_⟩⟩
  · rw [List.append_assoc, List.singleton_append]
    rw [headPtr_append] at hhead ⊢
    exact hhead
  · rw [List.append_assoc, List.singleton_append]
    exact Seg.insertAfter (c := (vma, r)) hseg hnodup hvma hnew
  · rw [List.append_assoc, List.singleton_append]
    refine harr.insert (c := (vma, r)) ⟨hr, hmax⟩ (not_lt.mp hover) ?_
    intro y hy
    rw [Option.mem_def] at hy
    simpa [hy] using hany
  · intro a
    have hp' : Function.update mm.areas vma (some (r.area (headPtr ys 0))) p.1 =
        some (p.2.area (headPtr ys 0)) := by
      rw [Function.update_of_ne hvp]
      exact hpval
    exact (update_none_iff hp' a).trans (update_none_iff harea a)

/-- `insert_vm_struct` on a list of disjoint areas. -/
theorem insertVmStruct_spec (hhead : mm.mmap = headPtr cs 0) (hseg : Seg Region.area mm.areas cs 0)
    (harr : Arranged cs) (hvma : vma ≠ 0) (hnew : vma ∉ cs.map Prod.fst)
    (harea : mm.areas vma = some (r.area next)) (hmax : r.stop < 2 ^ 32) :
    ∃ ok mm', insertVmStruct mm vma = some (ok, mm') ∧ InsertResult mm cs vma r ok mm' := by
  by_cases hr : r.start < r.stop
  · cases cs with
    | nil =>
        refine ⟨true, { mm with
            areas := Function.update mm.areas vma (some (r.area 0))
            mmap := vma
            mapCount := wrap (mm.mapCount + 1) }, ?_,
          .done [] [] _ rfl (fun _ => rfl) hr ⟨rfl, ⟨hvma, Function.update_self .., trivial⟩,
            ⟨?_, by simp⟩, rfl, rfl, rfl, update_none_iff harea⟩⟩
        · unfold insertVmStruct
          rw [harea]
          simp only [Option.bind_eq_bind, Option.bind_some, Region.area]
          rw [if_neg (not_le.mpr hr)]
          exact if_pos hhead
        · intro c hc
          rw [List.nil_append, List.mem_singleton] at hc
          subst hc
          exact ⟨hr, hmax⟩
    | cons c rest =>
        obtain ⟨xs, ys, hsplit, hxs, hys, hwalk⟩ := Seg.insertFrom_spec r.start (c :: rest) listFuel 0 hseg
          harr.length_lt
        rw [← hhead] at hwalk
        rcases List.eq_nil_or_concat xs with rfl | ⟨xs', p, rfl⟩
        · rw [List.nil_append] at hsplit
          subst hsplit
          obtain ⟨mm', hrun, hres⟩ := insert_first hhead hseg harr harea hr (hys c rfl) hwalk
          exact ⟨false, mm', hrun, hres⟩
        · have hlast : lastPtr 0 (xs'.concat p) = p.1 := by
            rw [List.concat_eq_append, lastPtr_append]
            rfl
          rw [hlast] at hwalk
          rw [List.concat_append] at hsplit
          rw [hsplit] at hhead hseg harr hnew ⊢
          exact insert_behind hhead hseg harr hvma hnew harea hr hmax (hxs p (by simp)) hys hwalk
  · refine ⟨false, mm, ?_, .empty (not_lt.mp hr)⟩
    unfold insertVmStruct
    rw [harea]
    exact if_pos (not_lt.mp hr)

end Insert

/-- The address space has exactly these areas, which need not be page-aligned. -/
structure Lists (mm : Mm σ) (cs : List (Nat × Region)) : Prop where
  head : mm.mmap = headPtr cs 0
  seg : Seg Region.area mm.areas cs 0
  arranged : Arranged cs
  count : mm.mapCount = cs.length

/-- The area is inserted in order and counted if it is not empty and overlaps no other one;
otherwise it is refused, and the list and the count stay. -/
def InsertsProperly (mm : Mm σ) (cs : List (Nat × Region)) (vma : Nat) (r : Region) : Prop :=
  ∃ ok mm', insertVmStruct mm vma = some (ok, mm') ∧
    (ok = true ↔ r.start < r.stop ∧ ∀ c ∈ cs, ¬ r.Overlaps c.2) ∧
    (ok = true → ∃ xs ys, cs = xs ++ ys ∧ Lists mm' (xs ++ (vma, r) :: ys) ∧ mm'.mapCount = mm.mapCount + 1) ∧
    (ok = false → Lists mm' cs)

theorem Arranged.not_overlaps {xs ys : List (Nat × Region)} {c d : Nat × Region}
    (h : Arranged (xs ++ c :: ys)) (hd : d ∈ xs ++ ys) : ¬ c.2.Overlaps d.2 := by
  obtain ⟨-, hcys, hcross⟩ := h.of_append
  rintro ⟨h1, h2⟩
  rcases List.mem_append.mp hd with hx | hy
  · exact absurd (hcross d hx c List.mem_cons_self) (not_le.mpr h1)
  · exact absurd ((List.pairwise_cons.mp hcys.sorted).1 d hy) (not_le.mpr h2)

/-- Insertion works unless a proper area ends at or below the start of the first one. -/
theorem inserts_properly_iff {mm : Mm σ} {cs : List (Nat × Region)} {vma next : Nat} {r : Region}
    (h : Lists mm cs) (hvma : vma ≠ 0) (hnew : vma ∉ cs.map Prod.fst)
    (harea : mm.areas vma = some (r.area next)) (hmax : r.stop < 2 ^ 32) :
    InsertsProperly mm cs vma r ↔ ¬ ∃ c ∈ cs.head?, r.start < r.stop ∧ r.stop ≤ c.2.start := by
  obtain ⟨ok, mm', hrun, hres⟩ := insertVmStruct_spec h.head h.seg h.arranged hvma hnew harea hmax
  constructor
  · rintro ⟨ok', mm'', hrun', hiff, -, -⟩ ⟨c, hc, hr, hbefore⟩
    cases hrun.symm.trans hrun'
    obtain ⟨rest, rfl⟩ : ∃ rest, cs = c :: rest := by
      cases cs with
      | nil => cases hc
      | cons d rest =>
          cases hc
          exact ⟨rest, rfl⟩
    -- the area overlaps nothing, and still it is refused
    have hfree : ∀ d ∈ c :: rest, ¬ r.Overlaps d.2 := by
      rintro d hd ⟨-, hlt⟩
      rcases List.mem_cons.mp hd with rfl | hd
      · omega
      · have hcd := (List.pairwise_cons.mp h.arranged.sorted).1 d hd
        have hcv := (h.arranged.valid c List.mem_cons_self).1
        omega
    have hok := hiff.mpr ⟨hr, hfree⟩
    cases hres with
    | empty hempty => cases hok
    | overlap d hd _ hover => cases hok
    | before d rest' hcs _ _ => cases hok
    | done xs ys mm' hcs hxs _ hins =>
        have harr := hins.arranged
        cases xs with
        | nil =>
            rw [hxs rfl] at hcs
            cases hcs
        | cons x xs =>
            cases hcs
            have hle := (List.pairwise_cons.mp harr.sorted).1 (vma, r) (by simp)
            have hcv := (h.arranged.valid c List.mem_cons_self).1
            dsimp only at hle
            omega
  · intro hplace
    refine ⟨ok, mm', hrun, ?_⟩
    cases hres with
    | empty hempty =>
        exact ⟨iff_of_false nofun fun hall => absurd hall.1 (not_lt.mpr hempty), nofun, fun _ => h⟩
    | overlap c hc _ hover =>
        exact ⟨iff_of_false nofun fun hall => hall.2 c hc hover, nofun, fun _ => h⟩
    | before c rest hcs hr hbefore => exact absurd ⟨c, by simp [hcs], hr, hbefore⟩ hplace
    | done xs ys mm' hcs _ hr hins =>
        have hlen := hins.arranged.length_lt
        have hcount : mm'.mapCount = mm.mapCount + 1 := by
          rw [hins.count, h.count, hcs]
          rw [List.length_append, List.length_cons] at hlen
          rw [List.length_append]
          exact wrap_of_lt (by omega)
        refine ⟨iff_of_true rfl ⟨hr, fun c hc => hins.arranged.not_overlaps (hcs ▸ hc)⟩,
          fun _ => ⟨xs, ys, hcs, ⟨hins.head, hins.seg, hins.arranged, ?_⟩, hcount⟩, nofun⟩
        rw [hcount, h.count, hcs]
        simp only [List.length_append, List.length_cons]
        omega

/-- One area at 0x1000, with its struct at 16, and the struct of a second one at 32. -/
def twoStructs (r : Region) : Mm Unit :=
  ⟨8, Function.update (Function.update (fun _ => none) 16 (some ⟨0x1000, 0x2000, 1, 16, 0⟩)) 32
    (some (r.area 0)),
    16, 1, ()⟩

theorem twoStructs_lists (r : Region) : Lists (twoStructs r) [(16, ⟨0x1000, 0x2000, 1, 16⟩)] := by
  refine ⟨rfl, ⟨by decide, ?_, trivial⟩, ⟨?_, List.pairwise_singleton _ _⟩, rfl⟩
  · exact rfl
  · intro c hc
    rw [List.mem_singleton] at hc
    subst hc
    decide

theorem twoStructs_area (r : Region) : (twoStructs r).areas 32 = some (r.area 0) := rfl

theorem inserts_behind : InsertsProperly (twoStructs ⟨0x5000, 0x6000, 5, 16⟩) [(16, ⟨0x1000, 0x2000, 1, 16⟩)] 32
    ⟨0x5000, 0x6000, 5, 16⟩ := by
  refine (inserts_properly_iff (twoStructs_lists _) (by decide) (by decide) (twoStructs_area _)
    (by decide)).mpr ?_
  rintro ⟨c, hc, -, hbefore⟩
  cases hc
  exact absurd hbefore (by decide)

/-- An area below the first one is refused, although it overlaps nothing. -/
theorem insert_before_refused :
    ¬ ∀ (mm : Mm Unit) (cs : List (Nat × Region)) (vma next : Nat) (r : Region), Lists mm cs → vma ≠ 0 →
      vma ∉ cs.map Prod.fst → mm.areas vma = some (r.area next) → r.stop < 2 ^ 32 →
        InsertsProperly mm cs vma r := by
  intro h
  obtain ⟨ok, mm', hrun, hiff, -, -⟩ := h (twoStructs ⟨0x400, 0x800, 0, 16⟩) _ 32 0 ⟨0x400, 0x800, 0, 16⟩
    (twoStructs_lists _) (by decide) (by decide) (twoStructs_area _) (by decide)
  have hresult : (insertVmStruct (twoStructs ⟨0x400, 0x800, 0, 16⟩) 32).map Prod.fst = some false := by
    decide +kernel
  rw [hrun] at hresult
  cases hresult
  have hok := hiff.mpr ⟨by decide, by
    intro c hc
    rw [List.mem_singleton] at hc
    subst hc
    rintro ⟨-, hlt⟩
    exact absurd hlt (by decide)⟩
  cases hok

end Frostix.Vma
