import Frostix.Vma.Unmap

/-!
Specification of `munmap_range`, `mmap_anonymous` and `mm_destroy`. Both list
operations go wrong on one kind of list: an area before a non-empty list is taken
back after it was linked, and an area that is neither the first nor split loses what
is before it. `MmapSafe` and `MunmapSafe` exclude these cases. -/
namespace Frostix.Vma
open Machine32 LinkedStore

variable {σ : Type} {lost : Nat}

/-- The placed area does not end at or below the start of the first one. -/
def MmapSafe (mm : Mm σ) (addr len : Nat) : Prop :=
  ∀ start stop head, placeArea mm addr len = some (.ok (start, stop)) → mm.mmap ≠ 0 →
    mm.areas mm.mmap = some head → head.vmStart < stop

section Unmap

variable {ops : MmOps σ} {I : Set Nat → σ → Prop}

/-- What `munmap_range` leaves: areas inside the old ones, and everything outside of
`[lo, hi)`. -/
structure Cut (cs cs' : List (Nat × Region)) (lo hi : Nat) : Prop where
  inside : ∀ x, InAreas cs' x → InAreas cs x
  outside : ∀ x, InAreas cs x → x < lo ∨ hi ≤ x → InAreas cs' x

theorem Cut.refl (cs : List (Nat × Region)) (lo hi : Nat) : Cut cs cs lo hi :=
  ⟨fun _ h => h, fun _ h _ => h⟩

theorem Trimmed.cut {stop lo : Nat} {ps qs rest cs' : List (Nat × Region)} {st : KernelStatus}
    (h : Trimmed stop ps qs rest st cs') (hps : ps = qs) (hlo : ∀ c ∈ rest, lo ≤ c.2.start) :
    Cut (qs ++ rest) cs' lo stop := by
  induction h with
  | nil qs =>
      rw [List.append_nil]
      exact Cut.refl _ _ _
  | behind qs c rest _ => exact Cut.refl _ _ _
  | failed qs c rest _ _ => exact Cut.refl _ _ _
  | split qs c rest u hlt hend =>
      subst hps
      refine ⟨fun x hx => ?_, fun x hx hout => ?_⟩
      · simp only [InAreas.append, InAreas.cons, Region.upper] at hx ⊢
        exact hx.imp_right (Or.imp_left fun h => ⟨le_trans hlt.le h.1, h.2⟩)
      · have hc := hlo c List.mem_cons_self
        simp only [InAreas.append, InAreas.cons, Region.upper] at hx ⊢
        exact hx.imp_right (Or.imp_left fun h => ⟨by omega, h.2⟩)
  | drop qs c rest cs' st hend htrim ih =>
      subst hps
      obtain ⟨hin, hout⟩ := ih rfl fun d hd => hlo d (List.mem_cons_of_mem _ hd)
      have hc := hlo c List.mem_cons_self
      refine ⟨fun x hx => ?_, fun x hx hxout => hout x ?_ hxout⟩
      · have hx' := hin x hx
        simp only [InAreas.append, InAreas.cons] at hx' ⊢
        exact hx'.imp_right Or.inr
      · simp only [InAreas.append, InAreas.cons] at hx ⊢
        refine hx.imp_right fun h => h.resolve_left fun hr => ?_
        omega

/-- `munmap_range` on a list that is safe for it. -/
theorem munmapRange_spec (hops : Allocator ops I) {mm : Mm σ} {cs : List (Nat × Region)}
    (hl : Linked lost mm cs) (hown : Owns I mm) {addr len : Nat} (hsafe : MunmapSafe mm addr len)
    (hun : Unmaps ops I fun va => va % 4096 = 0 ∧ alignDown addr 4096 ≤ va ∧
      va < alignUp (wrap (addr + len)) 4096 ∧ InAreas cs va) :
    ∃ st mm' cs', munmapRange ops mm addr len = some (st, mm') ∧ Linked lost mm' cs' ∧ Owns I mm' ∧
      mm'.self = mm.self ∧ Cut cs cs' (alignDown addr 4096) (alignUp (wrap (addr + len)) 4096) := by
  by_cases hlen : len = 0
  · refine ⟨.invalidParam, mm, cs, ?_, hl, hown, rfl, Cut.refl _ _ _⟩
    rw [munmapRange, if_pos hlen]
  obtain ⟨st, mm', cs', lost', U', hrun, hremoved, hleft, -⟩ := munmapRange_removes
    (Unmapping.of_allocator hops hun mm.self) hl hown rfl hlen fun va h1 h2 h3 h4 => ⟨h1, h2, h3, h4⟩
  obtain rfl : lost' = lost := hleft.kept hsafe
  refine ⟨st, mm', cs', hrun, hleft.linked, hleft.owns, hleft.same, ?_⟩
  cases hremoved with
  | none => exact Cut.refl _ _ _
  | failed => exact Cut.refl _ _ _
  | cut xs c ys u st cs' hxs hlo hin htrim =>
      have hys := (List.pairwise_cons.mp hl.ordered.of_append.2.1.sorted).1
      obtain ⟨hinside, houtside⟩ := @Trimmed.cut _ (alignDown addr 4096) _ _ _ _ _ htrim rfl (by
        intro d hd
        rcases List.mem_cons.mp hd with rfl | hd
        · exact le_rfl
        · exact le_trans hin.le (hys d hd))
      -- splitting an area changes no address
      have hsame : ∀ x, InAreas ((xs ++ [(c.1, c.2.lower (alignDown addr 4096))]) ++
          (u, c.2.upper (alignDown addr 4096)) :: ys) x ↔ InAreas (xs ++ c :: ys) x := by
        intro x
        have hnil : ¬ InAreas [] x := by simp [InAreas]
        simp only [InAreas.append, InAreas.cons, Region.lower, Region.upper, hnil, or_false, or_assoc]
        refine or_congr_right ?_
        rw [← or_assoc]
        refine or_congr_left ?_
        omega
      exact ⟨fun x hx => (hsame x).mp (hinside x hx), fun x hx hout => houtside x ((hsame x).mpr hx) hout⟩
  | whole xs c ys st cs' hxs hge hin htrim =>
      rcases (hl.munmapSafe_iff hxs hin).mp hsafe with rfl | hlt | hbehind
      · exact htrim.cut rfl fun d hd => hge.trans (hl.ordered.of_append.2.1.head_le hd)
      · omega
      · cases htrim with
        | behind => exact Cut.refl _ _ _
        | failed _ _ _ hlt _ => exact absurd hbehind (not_le.mpr hlt)
        | split _ _ _ _ hlt _ => exact absurd hbehind (not_le.mpr hlt)
        | drop _ _ _ _ _ hend _ =>
            have hpos := (hl.ordered.valid c (by simp)).2.2.1
            omega

theorem Seg.unmappedFrom_spec {areas : Nat → Option VmArea} (need : Nat) (cs : List (Nat × Region)) :
    ∀ fuel addr, Seg Region.area areas cs 0 → cs.length < fuel → addr % 4096 = 0 → addr < 2 ^ 32 →
      ∃ a, unmappedFrom areas need fuel (headPtr cs 0) addr = some a ∧ a % 4096 = 0 ∧ a < 2 ^ 32 := by
  induction cs with
  | nil =>
      intro fuel addr _ hfuel halign hlt
      obtain ⟨k, rfl⟩ := Nat.exists_eq_add_one.mpr (Nat.zero_lt_of_lt hfuel)
      rw [headPtr, unmappedFrom, if_pos rfl]
      split
      · exact ⟨addr, rfl, halign, hlt⟩
      · exact ⟨0, rfl, rfl, Nat.two_pow_pos 32⟩
  | cons c cs ih =>
      intro fuel addr hseg hfuel halign hlt
      obtain ⟨k, rfl⟩ := Nat.exists_eq_add_one.mpr (Nat.zero_lt_of_lt hfuel)
      obtain ⟨hne, hc, hcs⟩ := hseg
      rw [headPtr, unmappedFrom, if_neg hne, hc]
      simp only [Option.bind_eq_bind, Option.bind_some]
      have hnext : ∀ b, b % 4096 = 0 → b < 2 ^ 32 →
          ∃ a, (if searchEnd ≤ wrap (b + need) then some 0
            else unmappedFrom areas need k (headPtr cs 0) b) = some a ∧ a % 4096 = 0 ∧ a < 2 ^ 32 := by
        intro b hb hblt
        split
        · exact ⟨0, rfl, rfl, Nat.two_pow_pos 32⟩
        · exact ih k b hcs (by simpa using hfuel) hb hblt
      split
      · exact ⟨addr, rfl, halign, hlt⟩
      split
      · exact hnext _ (alignUp_mod _) (alignUp_lt _)
      · exact hnext _ halign hlt

theorem Linked.unmappedArea_spec {mm : Mm σ} {cs : List (Nat × Region)} (hl : Linked lost mm cs) (len : Nat) :
    ∃ a, unmappedArea mm len = some a ∧ a % 4096 = 0 ∧ a < 2 ^ 32 := by
  unfold unmappedArea
  split
  · exact ⟨0, rfl, rfl, Nat.two_pow_pos 32⟩
  split
  · split
    · exact ⟨searchStart, rfl, by decide, by decide⟩
    · exact ⟨0, rfl, rfl, Nat.two_pow_pos 32⟩
  · rw [hl.head]
    exact Seg.unmappedFrom_spec _ cs listFuel searchStart hl.seg hl.ordered.length_lt_fuel (by decide)
      (by decide)

/-- A placed range is aligned, not empty and does not start at 0. -/
theorem Linked.placeArea_spec {mm : Mm σ} {cs : List (Nat × Region)} (hl : Linked lost mm cs) (addr len : Nat) :
    (∃ status, placeArea mm addr len = some (.error status) ∧ status ≠ .ok) ∨
      ∃ start stop, placeArea mm addr len = some (.ok (start, stop)) ∧ start % 4096 = 0 ∧
        stop % 4096 = 0 ∧ start < stop ∧ stop < 2 ^ 32 ∧ start ≠ 0 := by
  unfold placeArea
  by_cases hlen : len = 0
  · rw [if_pos hlen]
    exact Or.inl ⟨_, rfl, nofun⟩
  rw [if_neg hlen]
  dsimp only
  by_cases hbad : alignUp (wrap (addr + len)) 4096 ≤ alignDown addr 4096 ∧ addr ≠ 0
  · rw [if_pos hbad]
    exact Or.inl ⟨_, rfl, nofun⟩
  rw [if_neg hbad]
  by_cases hauto : addr = 0
  · rw [if_pos hauto]
    obtain ⟨a, hrun, halign, hlt⟩ := hl.unmappedArea_spec len
    rw [hrun]
    simp only [Option.bind_eq_bind, Option.bind_some]
    by_cases hzero : a = 0
    · rw [if_pos hzero]
      exact Or.inl ⟨_, rfl, nofun⟩
    rw [if_neg hzero]
    have hstop : wrap (a + alignUp len 4096) % 4096 = 0 := by
      have hup := alignUp_mod len
      unfold wrap
      omega
    by_cases hempty : wrap (a + alignUp len 4096) ≤ a
    · rw [if_pos hempty]
      exact Or.inl ⟨_, rfl, nofun⟩
    · rw [if_neg hempty]
      exact Or.inr ⟨_, _, rfl, halign, hstop, not_le.mp hempty, wrap_lt _, hzero⟩
  · rw [if_neg hauto]
    by_cases hzero : alignDown addr 4096 = 0
    · rw [if_pos hzero]
      exact Or.inl ⟨_, rfl, nofun⟩
    · rw [if_neg hzero]
      refine Or.inr ⟨_, _, rfl, Nat.mul_mod_left _ _, alignUp_mod _, ?_, alignUp_lt _, hzero⟩
      by_contra hle
      exact hbad ⟨not_lt.mp hle, hauto⟩

theorem Linked.setNew {mm : Mm σ} {cs : List (Nat × Region)} {v : Nat} (hl : Linked lost mm cs)
    (hnew : v ∉ cs.map Prod.fst) (a : VmArea) :
    Linked lost { mm with areas := Function.update mm.areas v (some a) } cs :=
  ⟨hl.head, hl.seg.update hnew _, hl.ordered, hl.count⟩

theorem Owns.setNew {mm : Mm σ} {v : Nat} {x : VmArea} (h : Owns I mm) (hx : mm.areas v = some x) (a : VmArea) :
    Owns I { mm with areas := Function.update mm.areas v (some a) } :=
  h.congr rfl (update_none_iff hx) rfl

/-- The loop of an immediate mapping comes back, with `J` on success and `K` otherwise. -/
def MapsImmediate (ops : MmOps σ) (I J K : Set Nat → σ → Prop) (start stop : Nat) : Prop :=
  ∀ A s, I A s → ∃ st s', mapImmediate ops start ((stop - start) / 4096) 0 s = some (st, s') ∧
    (st = .ok → J A s') ∧ (st ≠ .ok → K A s')

/-- What `mmap_anonymous` leaves. On an error the list is the old one. -/
inductive Mapped (lost : Nat) (mm mm' : Mm σ) (I J K : Set Nat → σ → Prop) (cs : List (Nat × Region))
    (addr len flags : Nat) (st : KernelStatus) : Prop
  | refused : st ≠ .ok → Linked lost mm' cs → Owns I mm' → Mapped lost mm mm' I J K cs addr len flags st
  | failed (start stop : Nat) : st ≠ .ok → placeArea mm addr len = some (.ok (start, stop)) →
      immediate flags = true → Linked lost mm' cs → Owns K mm' →
      Mapped lost mm mm' I J K cs addr len flags st
  | done (start stop v : Nat) (r : Region) (xs ys : List (Nat × Region)) : st = .ok →
      placeArea mm addr len = some (.ok (start, stop)) → r.start = start → r.stop = stop →
      cs = xs ++ ys → Linked lost mm' (xs ++ (v, r) :: ys) →
      (immediate flags = true → Owns J mm') → (immediate flags = false → Owns I mm') →
      Mapped lost mm mm' I J K cs addr len flags st

/-- An immediate mapping starts behind the allocation of the struct. -/
theorem mmapAnonymous_spec {J K : Set Nat → σ → Prop} (hops : Allocator ops I) (hK : Frees ops K)
    {mm : Mm σ} {cs : List (Nat × Region)} (hl : Linked lost mm cs) (hown : Owns I mm) {addr len : Nat}
    (hsafe : MmapSafe mm addr len) (flags : Nat)
    (himm : ∀ start stop, placeArea mm addr len = some (.ok (start, stop)) → immediate flags = true →
      MapsImmediate ops (fun A s => I A s ∧ ∃ v, v ≠ 0 ∧ ops.kmalloc mm.env sizeofArea = some (v, s)) J K start stop) :
    ∃ st out mm', mmapAnonymous ops mm addr len flags = some ((st, out), mm') ∧ mm'.self = mm.self ∧
      Mapped lost mm mm' I J K cs addr len flags st := by
  unfold mmapAnonymous
  rcases hl.placeArea_spec addr len with ⟨status, hplace, hne⟩ |
    ⟨start, stop, hplace, hs1, hs2, hlt, hmax, hpos⟩
  · rw [hplace]
    exact ⟨status, 0, mm, rfl, rfl, .refused hne hl hown⟩
  rw [hplace]
  simp only [Option.bind_eq_bind, Option.bind_some]
  obtain ⟨v, mm₁, halloc, hmalloc, hself₁, hown₁, hl₁, ⟨rfl, -⟩ | ⟨hv, hnew, hsame, hcleared⟩⟩ :=
    hown.alloc (allocatesArea hops) hl
  · rw [halloc]
    exact ⟨.outOfMemory, 0, mm₁, rfl, hself₁, .refused nofun hl₁ hown₁⟩
  rw [halloc]
  simp only [Option.bind_some, if_neg hv]
  -- the struct is filled in
  have hr : Region.Valid ⟨start, stop, start / 4096, areaFlags flags⟩ := ⟨hs1, hs2, hlt, hmax⟩
  have hl₂ := hl₁.setNew hnew ⟨start, stop, start / 4096, areaFlags flags, 0⟩
  have hown₂ := hown₁.setNew hcleared ⟨start, stop, start / 4096, areaFlags flags, 0⟩
  have hself₂ : Mm.self { mm₁ with areas := Function.update mm₁.areas v (some
      (⟨start, stop, start / 4096, areaFlags flags, 0⟩ : VmArea)) } = mm.self := hself₁
  have harea₂ : Mm.areas { mm₁ with areas := Function.update mm₁.areas v (some
      (⟨start, stop, start / 4096, areaFlags flags, 0⟩ : VmArea)) } v =
      some (Region.area ⟨start, stop, start / 4096, areaFlags flags⟩ 0) := Function.update_self ..
  have henv₂ : Mm.env { mm₁ with areas := Function.update mm₁.areas v (some
      (⟨start, stop, start / 4096, areaFlags flags, 0⟩ : VmArea)) } = mm₁.env := rfl
  generalize ({ mm₁ with areas := Function.update mm₁.areas v (some
    ⟨start, stop, start / 4096, areaFlags flags, 0⟩) } : Mm σ) = mm₂ at *
  have hhead : ∀ c ∈ cs.head?, c.2.start < stop := by
    intro c hc
    cases cs with
    | nil => cases hc
    | cons d ds =>
        cases hc
        have hmmap : mm.mmap = c.1 := hl.head
        exact hsafe start stop _ hplace (by rw [hmmap]; exact hl.seg.1) (by rw [hmmap]; exact hl.seg.2.1)
  rcases hl₂.insert hv hnew harea₂ hr hhead with hrefused | ⟨xs, ys, mm₃, rfl, hins, hl₃, hself₃, henv₃, hnone₃⟩
  · rw [hrefused]
    refine ⟨.alreadyMapped, 0, _, rfl, ?_,
      .refused nofun (hl₂.free hnew) (hown₂.free (freesArea hops.kfree _) hv harea₂)⟩
    rw [vmAreaFree, if_neg hv]
    exact hself₂
  rw [hins]
  simp only [Option.bind_some, Bool.not_true, Bool.false_eq_true, if_false]
  have hown₃ : Owns I mm₃ := hown₂.congr hself₃ hnone₃ henv₃
  have hbehind : ops.kmalloc mm.env sizeofArea = some (v, mm₃.env) := by rw [henv₃, henv₂, hmalloc]
  by_cases himmediate : immediate flags = true
  · rw [if_pos himmediate]
    obtain ⟨st, s', hrun, hJ, hKpost⟩ := himm start stop hplace himmediate _ _ ⟨hown₃.ok, v, hv, hbehind⟩
    rw [hrun]
    simp only [Option.bind_some]
    by_cases hst : st = .ok
    · rw [if_neg (not_not.mpr hst)]
      exact ⟨.ok, start, _, rfl, hself₃.trans hself₂, .done start stop v _ xs ys rfl hplace rfl rfl rfl
        (hl₃.setEnv s') (fun _ => ⟨hown₃.self_apart, hJ hst⟩) (fun hfalse => by simp [himmediate] at hfalse)⟩
    · rw [if_pos hst]
      have hownK : Owns K { mm₃ with env := s' } := ⟨hown₃.self_apart, hKpost hst⟩
      obtain ⟨mm₄, hremove, hl₄, hself₄, henv₄, hnone₄⟩ := (hl₃.setEnv s').remove
      rw [hremove]
      have hown₄ : Owns K mm₄ := hownK.congr hself₄ hnone₄ henv₄
      have hval₄ : mm₄.areas v ≠ none := by
        rw [ne_eq, hnone₄]
        change ¬ mm₃.areas v = none
        rw [hnone₃, harea₂]
        exact Option.some_ne_none _
      obtain ⟨x, hx⟩ := Option.ne_none_iff_exists'.mp hval₄
      refine ⟨st, 0, _, rfl, ?_, .failed start stop hst hplace himmediate (hl₄.free hnew)
        (hown₄.free (freesArea hK _) hv hx)⟩
      rw [vmAreaFree, if_neg hv]
      exact hself₄.trans (hself₃.trans hself₂)
  · rw [if_neg himmediate]
    exact ⟨.ok, start, mm₃, rfl, hself₃.trans hself₂, .done start stop v _ xs ys rfl hplace rfl rfl rfl hl₃
      (fun htrue => absurd htrue himmediate) (fun _ => hown₃)⟩

theorem destroyFrom_spec (hops : Frees ops I) {P : Nat → Prop} (hun : Unmaps ops I P)
    (cs : List (Nat × Region)) :
    ∀ (mm : Mm σ) (fuel : Nat), Seg Region.area mm.areas cs 0 → Ordered cs → Owns I mm →
      cs.length < fuel → (∀ va, va % 4096 = 0 → InAreas cs va → P va) →
      ∃ mm', destroyFrom ops fuel (headPtr cs 0) mm = some mm' ∧ Owns I mm' ∧ mm'.self = mm.self := by
  induction cs with
  | nil =>
      intro mm fuel _ _ hown hfuel _
      obtain ⟨k, rfl⟩ := Nat.exists_eq_add_one.mpr (Nat.zero_lt_of_lt hfuel)
      exact ⟨mm, rfl, hown, rfl⟩
  | cons c cs ih =>
      intro mm fuel hseg hord hown hfuel hP
      obtain ⟨k, rfl⟩ := Nat.exists_eq_add_one.mpr (Nat.zero_lt_of_lt hfuel)
      have hnodup := nodup_of_seg hseg hord.arranged
      obtain ⟨hne, hval, hrest⟩ := hseg
      obtain ⟨-, s', hrun, hok, -⟩ := unmapArea_spec (U := ∅) (unmapsTo hun) (hord.valid c List.mem_cons_self)
        (headPtr cs 0) (fun va h1 h2 h3 => hP va h1 (InAreas.cons.mpr (Or.inl ⟨h2, h3⟩))) hown.ok
      have hown₁ := (hown.setEnv hok).free (freesArea hops _) hne (x := c.2.area (headPtr cs 0)) hval
      have hcs : c.1 ∉ cs.map Prod.fst := (List.nodup_cons.mp hnodup).1
      have hseg₁ : Seg Region.area (vmAreaFree ops { mm with env := s' } c.1).areas cs 0 := by
        rw [vmAreaFree, if_neg hne]
        exact hrest.update hcs _
      obtain ⟨mm', hfinish, hown', hself⟩ := ih _ k hseg₁ (@Ordered.of_append [c] cs hord).2.1 hown₁
        (by simpa using hfuel) (fun va h1 h2 => hP va h1 (InAreas.cons.mpr (Or.inr h2)))
      refine ⟨mm', ?_, hown', ?_⟩
      · rw [headPtr, destroyFrom, if_neg hne, hval]
        simp only [Option.bind_eq_bind, Option.bind_some]
        rw [hrun]
        exact hfinish
      · rw [hself, vmAreaFree, if_neg hne]

theorem mmDestroy_spec (hops : Frees ops I) {mm : Mm σ} {cs : List (Nat × Region)}
    (hl : Linked lost mm cs) (hown : Owns I mm)
    (hun : Unmaps ops I fun va => va % 4096 = 0 ∧ InAreas cs va) :
    ∃ s' A, mmDestroy ops mm = some s' ∧ I A s' := by
  obtain ⟨mm', hrun, hown', hself⟩ := destroyFrom_spec hops hun cs mm listFuel hl.seg hl.ordered hown
    hl.ordered.length_lt_fuel (fun va h1 h2 => ⟨h1, h2⟩)
  refine ⟨_, _, ?_, hops _ _ _ hown'.ok (Set.mem_insert ..)⟩
  rw [mmDestroy, hl.head, hrun]
  rfl

end Unmap

end Frostix.Vma
