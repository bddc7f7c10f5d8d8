import Frostix.Vma.Ops

/-!
The calls on every list they can leave behind. A mapping below the first area is freed while
it is the head, and an unmapping that does not start at the head loses the areas before it.
`Shape` says that nothing else happens to the list. -/
namespace Frostix.Vma
open Machine32 LinkedStore

variable {σ : Type}

/-- Some areas may be lost, or the head of the list has no struct. -/
inductive Shape (mm : Mm σ) : Prop
  | linked (lost : Nat) (cs : List (Nat × Region)) : Linked lost mm cs → Shape mm
  | dangling : mm.mmap ≠ 0 → mm.areas mm.mmap = none → Shape mm

inductive Mm.Reaches (mm : Mm σ) : Nat → Prop
  | head : mm.mmap ≠ 0 → Mm.Reaches mm mm.mmap
  | next (v : Nat) (a : VmArea) : Mm.Reaches mm v → mm.areas v = some a → a.vmNext ≠ 0 →
      Mm.Reaches mm a.vmNext

def Mm.Contains (mm : Mm σ) (va : Nat) : Prop :=
  ∃ v a, mm.Reaches v ∧ mm.areas v = some a ∧ a.vmStart ≤ va ∧ va < a.vmEnd

theorem Seg.contains {mm : Mm σ} {va : Nat} (cs : List (Nat × Region)) :
    Seg Region.area mm.areas cs 0 → (cs ≠ [] → mm.Reaches (headPtr cs 0)) → InAreas cs va → mm.Contains va := by
  induction cs with
  | nil =>
      rintro - - ⟨c, hc, -⟩
      exact absurd hc List.not_mem_nil
  | cons c cs ih =>
      rintro ⟨hne, hval, hseg⟩ hhead hin
      have hreach : mm.Reaches c.1 := hhead (List.cons_ne_nil c cs)
      rcases InAreas.cons.mp hin with ⟨hge, hlt⟩ | hin
      · exact ⟨c.1, _, hreach, hval, hge, hlt⟩
      · refine ih hseg (fun hcs => ?_) hin
        refine Mm.Reaches.next c.1 _ hreach hval ?_
        cases cs with
        | nil => exact absurd rfl hcs
        | cons d ds => exact hseg.1

theorem Linked.contains {lost : Nat} {mm : Mm σ} {cs : List (Nat × Region)} (h : Linked lost mm cs) {va : Nat}
    (hin : InAreas cs va) : mm.Contains va := by
  refine Seg.contains cs h.seg (fun hne => ?_) hin
  rw [← h.head]
  refine .head ?_
  rw [h.head]
  cases cs with
  | nil => exact absurd rfl hne
  | cons c cs => exact h.seg.1

theorem placeArea_error {mm : Mm σ} {addr len : Nat} {status : KernelStatus}
    (h : placeArea mm addr len = some (.error status)) : status ≠ .ok := by
  rintro rfl
  unfold placeArea at h
  by_cases hlen : len = 0
  · rw [if_pos hlen] at h
    cases h
  rw [if_neg hlen] at h
  dsimp only at h
  by_cases hbad : alignUp (wrap (addr + len)) 4096 ≤ alignDown addr 4096 ∧ addr ≠ 0
  · rw [if_pos hbad] at h
    cases h
  rw [if_neg hbad] at h
  by_cases hauto : addr = 0
  · rw [if_pos hauto] at h
    obtain ⟨candidate, -, hcase⟩ := Option.bind_eq_some_iff.mp h
    split_ifs at hcase <;> cases hcase
  · rw [if_neg hauto] at h
    split_ifs at h <;> cases h

section Mapping

variable {ops : MmOps σ} {I : Set Nat → σ → Prop} {mm : Mm σ} {addr len : Nat}

/-- An area below the first one is linked, refused and freed. -/
theorem mmapAnonymous_below (hops : Allocator ops I) {lost : Nat} {cs : List (Nat × Region)}
    (hl : Linked lost mm cs) (hown : Owns I mm) (hlow : ¬ MmapSafe mm addr len) (flags : Nat) :
    ∃ st mm', mmapAnonymous ops mm addr len flags = some ((st, 0), mm') ∧ st ≠ .ok ∧ Shape mm' ∧ Owns I mm' := by
  unfold MmapSafe at hlow
  push Not at hlow
  obtain ⟨start, stop, head, hplace, hne, hhead, hbelow⟩ := hlow
  rcases hl.placeArea_spec addr len with ⟨status, herror, -⟩ | ⟨start', stop', hplace', hs1, hs2, hlt, hmax, -⟩
  · cases hplace.symm.trans herror
  cases hplace.symm.trans hplace'
  unfold mmapAnonymous
  rw [hplace]
  simp only [Option.bind_eq_bind, Option.bind_some]
  obtain ⟨v, mm₁, halloc, -, hself₁, hown₁, hl₁, ⟨rfl, -⟩ | ⟨hv, hnew, hsame, hcleared⟩⟩ :=
    hown.alloc (allocatesArea hops) hl
  · rw [halloc]
    exact ⟨.outOfMemory, mm₁, rfl, nofun, .linked lost cs hl₁, hown₁⟩
  rw [halloc]
  simp only [Option.bind_some, if_neg hv]
  have hl₂ := hl₁.setNew hnew ⟨start, stop, start / 4096, areaFlags flags, 0⟩
  have hown₂ := hown₁.setNew hcleared ⟨start, stop, start / 4096, areaFlags flags, 0⟩
  have harea₂ : Mm.areas { mm₁ with areas := Function.update mm₁.areas v (some
      (⟨start, stop, start / 4096, areaFlags flags, 0⟩ : VmArea)) } v =
      some (Region.area ⟨start, stop, start / 4096, areaFlags flags⟩ 0) := Function.update_self ..
  generalize ({ mm₁ with areas := Function.update mm₁.areas v (some
    ⟨start, stop, start / 4096, areaFlags flags, 0⟩) } : Mm σ) = mm₂ at *
  obtain ⟨inserted, mm₃, hins, hres⟩ := insertVmStruct_spec hl₂.head hl₂.seg hl₂.ordered.arranged hv hnew harea₂ hmax
  cases hres with
  | empty _ =>
      rw [hins]
      exact ⟨.alreadyMapped, _, rfl, nofun, .linked lost cs (hl₂.free hnew),
        hown₂.free (freesArea hops.kfree _) hv harea₂⟩
  | overlap _ _ _ _ =>
      rw [hins]
      exact ⟨.alreadyMapped, _, rfl, nofun, .linked lost cs (hl₂.free hnew),
        hown₂.free (freesArea hops.kfree _) hv harea₂⟩
  | before c rest _ _ _ =>
      rw [hins]
      have hown₃ : Owns I { mm₂ with
          areas := Function.update mm₂.areas v
            (some (Region.area ⟨start, stop, start / 4096, areaFlags flags⟩ mm₂.mmap))
          mmap := v } := hown₂.congr rfl (update_none_iff harea₂) rfl
      refine ⟨.alreadyMapped, _, rfl, nofun, .dangling ?_ ?_,
        hown₃.free (freesArea hops.kfree _) hv (Function.update_self ..)⟩
      · rw [vmAreaFree, if_neg hv]
        exact hv
      · rw [vmAreaFree, if_neg hv]
        exact Function.update_self ..
  | done xs ys mm' hcs hends _ hinserted =>
      -- the list is not empty, and its first area is not before the new one
      exfalso
      cases xs with
      | nil =>
          have hhead₀ := hl.head
          rw [hcs, hends rfl] at hhead₀
          exact hne hhead₀
      | cons x xs =>
          have hhead₀ := hl.head
          have hseg := hl.seg
          rw [hcs] at hhead₀ hseg
          have hfirst : mm.mmap = x.1 := hhead₀
          rw [hfirst, hseg.2.1] at hhead
          cases hhead
          have hbelow' : stop ≤ x.2.start := hbelow
          have hbehind : x.2.stop ≤ start :=
            hinserted.arranged.of_append.2.2 x List.mem_cons_self
              (v, ⟨start, stop, start / 4096, areaFlags flags⟩)
              List.mem_cons_self
          have hx := (hl.ordered.valid x (by simp [hcs])).2.2.1
          omega

theorem insert_dangling {mm mm' : Mm σ} {vma : Nat} {a : VmArea} {inserted : Bool} (hne : mm.mmap ≠ 0)
    (harea : mm.areas vma = some a) (hhead : mm.mmap = vma ∨ mm.areas mm.mmap = none)
    (hrun : insertVmStruct mm vma = some (inserted, mm')) : inserted = false ∧ mm' = mm := by
  unfold insertVmStruct at hrun
  rw [harea] at hrun
  simp only [Option.bind_eq_bind, Option.bind_some] at hrun
  by_cases hempty : a.vmEnd ≤ a.vmStart
  · rw [if_pos hempty] at hrun
    cases hrun
    exact ⟨rfl, rfl⟩
  rw [if_neg hempty, if_neg hne, show listFuel = (listFuel - 1) + 1 from rfl, insertFrom, if_neg hne] at hrun
  rcases hhead with heq | hnone
  · simp only [heq, harea, Option.bind_eq_bind, Option.bind_some, lt_irrefl, if_false, if_true] at hrun
    rw [if_pos (not_le.mp hempty)] at hrun
    cases hrun
    exact ⟨rfl, rfl⟩
  · simp only [hnone, Option.bind_eq_bind, Option.bind_none] at hrun
    cases hrun

theorem mmapAnonymous_dangling (hops : Allocator ops I) {mm' : Mm σ} (hne : mm.mmap ≠ 0)
    (hnone : mm.areas mm.mmap = none) (hown : Owns I mm) {flags out : Nat} {st : KernelStatus}
    (hrun : mmapAnonymous ops mm addr len flags = some ((st, out), mm')) :
    st ≠ .ok ∧ Shape mm' ∧ Owns I mm' := by
  obtain ⟨placed, hplace, hrun⟩ := Option.bind_eq_some_iff.mp hrun
  cases placed with
  | error status =>
      cases hrun
      exact ⟨placeArea_error hplace, .dangling hne hnone, hown⟩
  | ok range =>
      obtain ⟨start, stop⟩ := range
      dsimp only at hrun
      obtain ⟨v, mm₁, halloc, -, hself, hmmap, -, hown₁, ⟨rfl, hsame⟩ | ⟨hv, -, hupdate⟩⟩ :=
        hown.areaAlloc (allocatesArea hops)
      · rw [halloc] at hrun
        cases hrun
        exact ⟨nofun, .dangling (by rw [hmmap]; exact hne) (by rw [hmmap, hsame]; exact hnone), hown₁⟩
      rw [halloc] at hrun
      simp only [Option.bind_eq_bind, Option.bind_some, if_neg hv] at hrun
      obtain ⟨⟨inserted, mm₃⟩, hinsert, hrun⟩ := Option.bind_eq_some_iff.mp hrun
      have hhead : mm₁.mmap = v ∨ Function.update mm₁.areas v (some
          (⟨start, stop, start / 4096, areaFlags flags, 0⟩ : VmArea)) mm₁.mmap = none := by
        by_cases heq : mm₁.mmap = v
        · exact Or.inl heq
        · right
          rw [Function.update_of_ne heq, hupdate, Function.update_of_ne heq, hmmap]
          exact hnone
      have hne₁ : mm₁.mmap ≠ 0 := by
        rw [hmmap]
        exact hne
      have hown₂ : Owns I { mm₁ with areas := Function.update mm₁.areas v (some
          (⟨start, stop, start / 4096, areaFlags flags, 0⟩ : VmArea)) } :=
        hown₁.congr rfl (update_none_iff (y := ⟨0, 0, 0, 0, 0⟩) (by rw [hupdate]; exact Function.update_self ..)) rfl
      obtain ⟨rfl, rfl⟩ := @insert_dangling _ { mm₁ with areas := Function.update mm₁.areas v (some
          (⟨start, stop, start / 4096, areaFlags flags, 0⟩ : VmArea)) } _ v _ _ hne₁ (Function.update_self ..)
        hhead hinsert
      simp only [Bool.not_false, if_true] at hrun
      cases hrun
      refine ⟨nofun, .dangling ?_ ?_, hown₂.free (freesArea hops.kfree _) hv (Function.update_self ..)⟩
      · rw [vmAreaFree, if_neg hv]
        exact hne₁
      · rw [vmAreaFree, if_neg hv]
        change Function.update (Function.update mm₁.areas v _) v none mm₁.mmap = none
        by_cases heq : mm₁.mmap = v
        · rw [heq, Function.update_self]
        · rw [Function.update_of_ne heq]
          exact hhead.resolve_left heq

/-- `mmap_anonymous` on any list; `J` is what an immediate mapping leaves behind. -/
theorem Shape.mmapAnonymous (hops : Allocator ops I) {J : Set Nat → σ → Prop} (hJ : ∀ A s, J A s → I A s)
    (h : Shape mm) (hown : Owns I mm) {flags out : Nat} {st : KernelStatus} {mm' : Mm σ}
    (himm : ∀ start stop, placeArea mm addr len = some (.ok (start, stop)) → start % 4096 = 0 →
      stop % 4096 = 0 → start < stop → stop < 2 ^ 32 → immediate flags = true →
        MapsImmediate ops I J I start stop)
    (hrun : Vma.mmapAnonymous ops mm addr len flags = some ((st, out), mm')) :
    Shape mm' ∧ Owns I mm' ∧ (st = .ok → immediate flags = true → Owns J mm') := by
  cases h with
  | dangling hne hnone =>
      obtain ⟨hst, hshape, hown'⟩ := mmapAnonymous_dangling hops hne hnone hown hrun
      exact ⟨hshape, hown', fun hok => absurd hok hst⟩
  | linked lost cs hl =>
      by_cases hsafe : MmapSafe mm addr len
      · obtain ⟨st', out', mm'', hrun', -, hmapped⟩ := mmapAnonymous_spec hops hops.kfree hl hown hsafe
          flags (fun start stop hplace hflag A s hs => by
            rcases hl.placeArea_spec addr len with ⟨status, herror, -⟩ | ⟨a, b, hplace', hs1, hs2, hlt, hmax, -⟩
            · cases hplace.symm.trans herror
            · cases hplace.symm.trans hplace'
              exact himm start stop hplace hs1 hs2 hlt hmax hflag A s hs.1)
        cases hrun.symm.trans hrun'
        cases hmapped with
        | refused hst hl' hown' => exact ⟨.linked lost cs hl', hown', fun hok => absurd hok hst⟩
        | failed start stop hst _ _ hl' hown' => exact ⟨.linked lost cs hl', hown', fun hok => absurd hok hst⟩
        | done start stop v r xs ys _ _ _ _ _ hl' himmediate hlazy =>
            refine ⟨.linked lost _ hl', ?_, fun _ => himmediate⟩
            cases hflag : immediate flags with
            | true => exact (himmediate hflag).imp hJ
            | false => exact hlazy hflag
      · obtain ⟨st', mm'', hrun', hst, hshape, hown'⟩ := mmapAnonymous_below hops hl hown hsafe flags
        cases hrun.symm.trans hrun'
        exact ⟨hshape, hown', fun hok => absurd hok hst⟩

end Mapping

section Unmapping

variable {ops : MmOps σ} {I : Set Nat → σ → Prop} {mm : Mm σ}

theorem Shape.setEnv (h : Shape mm) (s : σ) : Shape { mm with env := s } := by
  cases h with
  | linked lost cs hl => exact .linked lost cs (hl.setEnv s)
  | dangling hne hnone => exact .dangling hne hnone

theorem munmapRange_dangling (hne : mm.mmap ≠ 0) (hnone : mm.areas mm.mmap = none) {addr len : Nat}
    (hlen : len ≠ 0) : munmapRange ops mm addr len = none := by
  have hfind : findVma mm (alignDown addr 4096) = none := by
    rw [findVma, show listFuel = (listFuel - 1) + 1 from rfl, findFrom, if_neg hne, hnone]
    rfl
  rw [munmapRange, if_neg hlen]
  simp only [hfind, Option.bind_eq_bind, Option.bind_none]

theorem Linked.page_below {lost : Nat} {cs : List (Nat × Region)} (h : Linked lost mm cs) {va : Nat}
    (haligned : va % 4096 = 0) (hin : InAreas cs va) : va + 4096 < 2 ^ 32 := by
  obtain ⟨c, hc, -, hlt⟩ := hin
  obtain ⟨-, hstop, -, hmax⟩ := h.ordered.valid c hc
  omega

theorem Shape.munmapRange (hops : Allocator ops I) (h : Shape mm) (hown : Owns I mm) {addr len : Nat}
    (hun : Unmaps ops I fun va => va % 4096 = 0 ∧ va + 4096 < 2 ^ 32 ∧ alignDown addr 4096 ≤ va ∧
      va < alignUp (wrap (addr + len)) 4096 ∧ mm.Contains va) {st : KernelStatus} {mm' : Mm σ}
    (hrun : Vma.munmapRange ops mm addr len = some (st, mm')) : Shape mm' ∧ Owns I mm' := by
  by_cases hlen : len = 0
  · rw [Vma.munmapRange, if_pos hlen] at hrun
    cases hrun
    exact ⟨h, hown⟩
  cases h with
  | dangling hne hnone =>
      rw [munmapRange_dangling hne hnone hlen] at hrun
      cases hrun
  | linked lost cs hl =>
      obtain ⟨st', mm'', cs', lost', U', hrun', -, hleft, -⟩ := munmapRange_removes
        (Unmapping.of_allocator hops hun mm.self) hl hown rfl hlen
        fun va h1 h2 h3 h4 => ⟨h1, hl.page_below h1 h4, h2, h3, hl.contains h4⟩
      cases hrun.symm.trans hrun'
      exact ⟨.linked lost' cs' hleft.linked, hleft.owns⟩

theorem Shape.mmDestroy (hops : Frees ops I) (h : Shape mm) (hown : Owns I mm)
    (hun : Unmaps ops I fun va => va % 4096 = 0 ∧ va + 4096 < 2 ^ 32 ∧ mm.Contains va) {s : σ}
    (hrun : Vma.mmDestroy ops mm = some s) : ∃ A, I A s := by
  cases h with
  | dangling hne hnone =>
      rw [Vma.mmDestroy, show listFuel = (listFuel - 1) + 1 from rfl, destroyFrom, if_neg hne, hnone] at hrun
      cases hrun
  | linked lost cs hl =>
      obtain ⟨s', A, hrun', hs⟩ := mmDestroy_spec hops hl hown fun va hva A s hs =>
        hun va ⟨hva.1, hl.page_below hva.1 hva.2, hl.contains hva.2⟩ A s hs
      cases hrun.symm.trans hrun'
      exact ⟨A, hs⟩

end Unmapping

end Frostix.Vma
