import Frostix.Vma.Insert

/-!
The list operations of the area code: insertion, removal, splitting and freeing.
The allocator below is known only by its contract: it returns 0 or the address of no
struct of this address space. -/
namespace Frostix.Vma
open Machine32 LinkedStore

variable {σ : Type} {lost : Nat}

def Mm.structs (mm : Mm σ) : Set Nat := insert mm.self {a | mm.areas a ≠ none}

/-- The `mm_struct` is none of its areas, and the allocator knows all of them. -/
structure Owns (I : Set Nat → σ → Prop) (mm : Mm σ) : Prop where
  self_apart : mm.areas mm.self = none
  ok : I mm.structs mm.env

theorem structs_congr {mm mm' : Mm σ} (hself : mm'.self = mm.self)
    (hareas : ∀ a, mm'.areas a = none ↔ mm.areas a = none) : mm'.structs = mm.structs := by
  ext a
  simp [Mm.structs, hself, hareas]

theorem Owns.congr {I : Set Nat → σ → Prop} {mm mm' : Mm σ} (h : Owns I mm)
    (hself : mm'.self = mm.self) (hareas : ∀ a, mm'.areas a = none ↔ mm.areas a = none)
    (henv : mm'.env = mm.env) : Owns I mm' := by
  refine ⟨?_, ?_⟩
  · rw [hareas, hself]
    exact h.self_apart
  · rw [structs_congr hself hareas, henv]
    exact h.ok

theorem Ordered.insert {xs ys : List (Nat × Region)} {p c : Nat × Region}
    (h : Ordered (xs ++ p :: ys)) (hc : c.2.Valid) (hlo : p.2.stop ≤ c.2.start)
    (hhi : ∀ y ∈ ys.head?, c.2.stop ≤ y.2.start) : Ordered (xs ++ p :: c :: ys) := by
  refine (h.arranged.insert hc.2.2 hlo hhi).ordered fun d hd => ?_
  simp only [List.mem_append, List.mem_cons] at hd
  by_cases hdc : d = c
  · rw [hdc]
    exact ⟨hc.1, hc.2.1⟩
  · have hold := h.valid d (by simp; tauto)
    exact ⟨hold.1, hold.2.1⟩

theorem Ordered.shrink {xs ys : List (Nat × Region)} {a b : Nat} {r : Region}
    (h : Ordered (xs ++ (a, r) :: ys)) (r' : Region) (hr : r'.Valid) (hlo : r.start ≤ r'.start)
    (hhi : r'.stop ≤ r.stop) : Ordered (xs ++ (b, r') :: ys) := by
  obtain ⟨hxs, hrys, hcross⟩ := h.of_append
  obtain ⟨hry, hys⟩ := List.pairwise_cons.mp hrys.sorted
  refine hxs.append ⟨?_, List.pairwise_cons.mpr ⟨?_, hys⟩⟩ ?_
  · intro d hd
    rcases List.mem_cons.mp hd with rfl | hd
    · exact hr
    · exact hrys.valid d (List.mem_cons_of_mem _ hd)
  · intro d hd
    exact le_trans hhi (hry d hd)
  · intro x hx d hd
    rcases List.mem_cons.mp hd with rfl | hd
    · exact le_trans (hcross x hx _ List.mem_cons_self) hlo
    · exact hcross x hx d (List.mem_cons_of_mem _ hd)

theorem Linked.inserted {mm mm' : Mm σ} {xs ys : List (Nat × Region)} {vma : Nat} {r : Region}
    (h : Linked lost mm (xs ++ ys)) (hr : r.Valid) (hins : Inserted mm mm' xs ys (vma, r)) :
    Linked lost mm' (xs ++ (vma, r) :: ys) := by
  refine ⟨hins.head, hins.seg, hins.arranged.ordered ?_, ?_⟩
  · intro d hd
    simp only [List.mem_append, List.mem_cons] at hd
    by_cases hdr : d = (vma, r)
    · rw [hdr]
      exact ⟨hr.1, hr.2.1⟩
    · have hold := h.ordered.valid d (by rw [List.mem_append]; tauto)
      exact ⟨hold.1, hold.2.1⟩
  · rw [hins.count, h.count]
    simp only [List.length_append, List.length_cons]
    unfold wrap
    omega

/-- `insert_vm_struct` refuses an area or puts it at its place, provided it need not go
before the head. -/
theorem Linked.insert {mm : Mm σ} {cs : List (Nat × Region)} {vma next : Nat} {r : Region}
    (h : Linked lost mm cs) (hvma : vma ≠ 0) (hnew : vma ∉ cs.map Prod.fst)
    (harea : mm.areas vma = some (r.area next)) (hr : r.Valid)
    (hhead : ∀ c ∈ cs.head?, c.2.start < r.stop) :
    insertVmStruct mm vma = some (false, mm) ∨
      ∃ xs ys mm', cs = xs ++ ys ∧ insertVmStruct mm vma = some (true, mm') ∧
        Linked lost mm' (xs ++ (vma, r) :: ys) ∧ mm'.self = mm.self ∧ mm'.env = mm.env ∧
        ∀ a, mm'.areas a = none ↔ mm.areas a = none := by
  obtain ⟨ok, mm', hrun, hres⟩ := insertVmStruct_spec h.head h.seg h.ordered.arranged hvma hnew harea hr.2.2.2
  cases hres with
  | empty hempty => exact Or.inl hrun
  | overlap c hc _ hover => exact Or.inl hrun
  | before c rest hcs _ hle => exact absurd (hhead c (by simp [hcs])) (not_lt.mpr hle)
  | done xs ys mm' hcs _ _ hins =>
      exact Or.inr ⟨xs, ys, mm', hcs, hrun, (hcs ▸ h).inserted hr hins, hins.self, hins.env, hins.structs⟩

/-- Unlinking the area behind the known part `ps` of the list. -/
theorem Linked.unlinkAfter {mm : Mm σ} {ps ys : List (Nat × Region)} {c : Nat × Region}
    (h : Linked lost mm (ps ++ c :: ys)) :
    ∃ mm', unlinkAfter mm (lastPtr 0 ps) (headPtr ys 0) = some mm' ∧ Linked lost mm' (ps ++ ys) ∧
      mm'.self = mm.self ∧ mm'.env = mm.env ∧ mm'.areas c.1 = mm.areas c.1 ∧
      ∀ a, mm'.areas a = none ↔ mm.areas a = none := by
  have hlen := h.ordered.length_lt
  have hcount : wsub mm.mapCount 1 = wrap ((ps ++ ys).length + lost) := by
    rw [h.count]
    simp only [List.length_append, List.length_cons]
    unfold wsub wrap
    omega
  have hord : Ordered (ps ++ ys) :=
    h.ordered.sublist ((List.Sublist.refl ps).append (List.sublist_cons_self c ys))
  unfold Vma.unlinkAfter
  rcases List.eq_nil_or_concat ps with rfl | ⟨qs, p, rfl⟩
  · rw [lastPtr, if_pos rfl]
    exact ⟨_, rfl, ⟨rfl, h.seg.2.2, hord, hcount⟩, rfl, rfl, rfl, fun _ => Iff.rfl⟩
  · rw [List.concat_eq_append] at *
    have hseg := h.seg
    have hnodup := h.nodup
    rw [List.append_assoc, List.singleton_append] at hseg hnodup
    obtain ⟨-, hpne, hpval, -⟩ := Seg.append.mp hseg
    have hlast : lastPtr 0 (qs ++ [p]) = p.1 := by
      rw [lastPtr_append]
      rfl
    rw [hlast, if_neg hpne, hpval]
    have hcp : c.1 ≠ p.1 := by
      intro heq
      exact (notMem_of_nodup hnodup).2 (heq ▸ List.mem_cons_self)
    refine ⟨_, rfl, ⟨?_, ?_, hord, hcount⟩, rfl, rfl, Function.update_of_ne hcp _ _,
      update_none_iff hpval⟩
    · have hhd := h.head
      rw [List.append_assoc, List.singleton_append, headPtr_append] at hhd ⊢
      exact hhd
    · rw [List.append_assoc, List.singleton_append]
      exact hseg.removeAfter hnodup

/-- The walk of `remove_vm_struct` reaches the area and unlinks it. -/
theorem Linked.removeFrom_spec {mm : Mm σ} {c : Nat × Region} {ys : List (Nat × Region)}
    (xs : List (Nat × Region)) :
    ∀ (ps : List (Nat × Region)) (fuel : Nat), Linked lost mm (ps ++ xs ++ c :: ys) → xs.length < fuel →
      ∃ mm', removeFrom mm c.1 fuel (lastPtr 0 ps) (headPtr (xs ++ c :: ys) 0) = some mm' ∧
        Linked lost mm' (ps ++ xs ++ ys) ∧ mm'.self = mm.self ∧ mm'.env = mm.env ∧
        ∀ a, mm'.areas a = none ↔ mm.areas a = none := by
  induction xs with
  | nil =>
      intro ps fuel h hfuel
      obtain ⟨k, rfl⟩ := Nat.exists_eq_add_one.mpr (Nat.zero_lt_of_lt hfuel)
      rw [List.append_nil] at h ⊢
      obtain ⟨-, hcne, hcval, -⟩ := Seg.append.mp h.seg
      obtain ⟨mm₁, hrun, hlist, hself, henv, hcval₁, hnone⟩ := h.unlinkAfter
      obtain ⟨hcx, hcy⟩ := notMem_of_nodup h.nodup
      -- the source clears the link of the removed struct as well
      refine ⟨{ mm₁ with areas := Function.update mm₁.areas c.1 (some (c.2.area 0)) }, ?_,
        ⟨hlist.head, hlist.seg.update ?_ _, hlist.ordered, hlist.count⟩, hself, henv, ?_⟩
      · rw [List.nil_append, removeFrom, headPtr, if_neg hcne, hcval]
        simp only [Option.bind_eq_bind, Option.bind_some, if_true, Region.area]
        unfold Vma.unlinkAfter at hrun
        split at hrun
        · rename_i hzero
          cases hrun
          rw [if_pos hzero]
        · rename_i hne
          rw [if_neg hne]
          obtain ⟨p, hp, heq⟩ := Option.bind_eq_some_iff.mp hrun
          cases heq
          rw [hp]
          rfl
      · rw [List.map_append, List.mem_append, not_or]
        exact ⟨hcx, hcy⟩
      · intro a
        exact (update_none_iff (hcval₁.trans hcval) a).trans (hnone a)
  | cons x xs ih =>
      intro ps fuel h hfuel
      obtain ⟨k, rfl⟩ := Nat.exists_eq_add_one.mpr (Nat.zero_lt_of_lt hfuel)
      have hseg := h.seg
      have hnodup := h.nodup
      rw [List.append_assoc, List.cons_append] at hseg hnodup
      obtain ⟨-, hxne, hxval, -⟩ := Seg.append.mp hseg
      have hxc : x.1 ≠ c.1 := by
        intro heq
        exact (notMem_of_nodup hnodup).2 (by simp [heq])
      obtain ⟨mm', hrun, hrest⟩ := ih (ps ++ [x]) k (by simpa using h) (by simpa using hfuel)
      refine ⟨mm', ?_, by simpa using hrest⟩
      rw [List.cons_append, removeFrom, headPtr, if_neg hxne, hxval]
      simp only [Option.bind_eq_bind, Option.bind_some, if_neg hxc]
      rw [lastPtr_append] at hrun
      exact hrun

theorem Linked.remove {mm : Mm σ} {xs ys : List (Nat × Region)} {c : Nat × Region}
    (h : Linked lost mm (xs ++ c :: ys)) :
    ∃ mm', removeVmStruct mm c.1 = some mm' ∧ Linked lost mm' (xs ++ ys) ∧ mm'.self = mm.self ∧
      mm'.env = mm.env ∧ ∀ a, mm'.areas a = none ↔ mm.areas a = none := by
  have hlen := h.ordered.length_lt_fuel
  rw [List.length_append] at hlen
  obtain ⟨mm', hrun, hrest⟩ := @Linked.removeFrom_spec _ lost mm c ys xs [] listFuel h (by omega)
  refine ⟨mm', ?_, hrest⟩
  rw [removeVmStruct, h.head]
  exact hrun

section Structs

variable {ops : MmOps σ} {I : Set Nat → σ → Prop}

theorem Linked.free {mm : Mm σ} {cs : List (Nat × Region)} {a : Nat} (h : Linked lost mm cs)
    (ha : a ∉ cs.map Prod.fst) : Linked lost (vmAreaFree ops mm a) cs := by
  unfold vmAreaFree
  split
  · exact h
  · exact ⟨h.head, h.seg.update ha _, h.ordered, h.count⟩

/-- `kmalloc` for an area struct leads from `I` to `J`. -/
def AllocatesArea (ops : MmOps σ) (I J : Set Nat → σ → Prop) : Prop :=
  ∀ A s, I A s → ∃ p s', ops.kmalloc s sizeofArea = some (p, s') ∧
    ((p = 0 ∧ J A s') ∨ (p ≠ 0 ∧ p < 2 ^ 32 ∧ p ∉ A ∧ J (insert p A) s'))

/-- `kfree` of a struct other than `self` leads from `I` to `J`. -/
def FreesArea (ops : MmOps σ) (self : Nat) (I J : Set Nat → σ → Prop) : Prop :=
  ∀ A s p, I A s → p ∈ A → p ≠ self → J (A \ {p}) (ops.kfree s p)

theorem allocatesArea (h : Allocator ops I) : AllocatesArea ops I I :=
  fun _ _ hs => h.kmalloc sizeofArea hs

theorem freesArea (h : Frees ops I) (self : Nat) : FreesArea ops self I I :=
  fun A s p hs hp _ => h A s p hs hp

theorem Owns.free {J : Set Nat → σ → Prop} {mm : Mm σ} (hfree : FreesArea ops mm.self I J) {a : Nat}
    {x : VmArea} (h : Owns I mm) (hne : a ≠ 0) (ha : mm.areas a = some x) : Owns J (vmAreaFree ops mm a) := by
  have hself : a ≠ mm.self := by
    rintro rfl
    rw [h.self_apart] at ha
    cases ha
  have hmem : a ∈ mm.structs := Or.inr (by simp [ha])
  rw [vmAreaFree, if_neg hne]
  refine ⟨?_, ?_⟩
  · change Function.update mm.areas a none mm.self = none
    rw [Function.update_of_ne hself.symm]
    exact h.self_apart
  · have hset : Mm.structs { mm with env := ops.kfree mm.env a, areas := Function.update mm.areas a none } =
        mm.structs \ {a} := by
      ext b
      simp only [Mm.structs, Set.mem_insert_iff, Set.mem_ofPred_eq, Set.mem_sdiff,
        Set.mem_singleton_iff]
      by_cases hb : b = a
      · subst hb
        simp [hself]
      · simp [hb]
    rw [hset]
    exact hfree _ _ _ h.ok hmem hself

/-- `vm_area_alloc` returns 0, or a struct that was not allocated. -/
theorem Owns.areaAlloc {J : Set Nat → σ → Prop} (hops : AllocatesArea ops I J) {mm : Mm σ} (h : Owns I mm) :
    ∃ v mm', vmAreaAlloc ops mm = some (v, mm') ∧ ops.kmalloc mm.env sizeofArea = some (v, mm'.env) ∧
      mm'.self = mm.self ∧ mm'.mmap = mm.mmap ∧ mm'.mapCount = mm.mapCount ∧ Owns J mm' ∧
      ((v = 0 ∧ mm'.areas = mm.areas) ∨ (v ≠ 0 ∧ mm.areas v = none ∧
        mm'.areas = Function.update mm.areas v (some ⟨0, 0, 0, 0, 0⟩))) := by
  obtain ⟨p, s', hrun, ⟨rfl, hok⟩ | ⟨hp, -, hnew, hok⟩⟩ := hops _ _ h.ok
  · refine ⟨0, { mm with env := s' }, ?_, hrun, rfl, rfl, rfl, ⟨h.self_apart, hok⟩, Or.inl ⟨rfl, rfl⟩⟩
    rw [vmAreaAlloc, hrun]
    rfl
  · have hself : p ≠ mm.self := by
      rintro rfl
      exact hnew (Set.mem_insert ..)
    have hnone : mm.areas p = none := by
      by_contra hsome
      exact hnew (Or.inr hsome)
    refine ⟨p, { mm with env := s', areas := Function.update mm.areas p (some ⟨0, 0, 0, 0, 0⟩) }, ?_, hrun, rfl,
      rfl, rfl, ⟨?_, ?_⟩, Or.inr ⟨hp, hnone, rfl⟩⟩
    · rw [vmAreaAlloc, hrun]
      exact if_neg hp
    · change Function.update mm.areas p _ mm.self = none
      rw [Function.update_of_ne hself.symm]
      exact h.self_apart
    · have hset : Mm.structs { mm with env := s', areas := Function.update mm.areas p (some ⟨0, 0, 0, 0, 0⟩) } =
          Insert.insert p mm.structs := by
        ext b
        simp only [Mm.structs, Set.mem_insert_iff, Set.mem_ofPred_eq]
        by_cases hb : b = p
        · subst hb
          simp
        · simp [hb]
      rw [hset]
      exact hok

theorem Owns.alloc {J : Set Nat → σ → Prop} (hops : AllocatesArea ops I J) {mm : Mm σ}
    {cs : List (Nat × Region)} (h : Owns I mm) (hl : Linked lost mm cs) :
    ∃ v mm', vmAreaAlloc ops mm = some (v, mm') ∧ ops.kmalloc mm.env sizeofArea = some (v, mm'.env) ∧
      mm'.self = mm.self ∧ Owns J mm' ∧ Linked lost mm' cs ∧
      ((v = 0 ∧ mm'.areas = mm.areas) ∨ (v ≠ 0 ∧ v ∉ cs.map Prod.fst ∧
        (∀ a, a ≠ v → mm'.areas a = mm.areas a) ∧ mm'.areas v = some ⟨0, 0, 0, 0, 0⟩)) := by
  obtain ⟨v, mm', hrun, hmem, hself, hmmap, hcount, hown, ⟨rfl, hsame⟩ | ⟨hv, hnone, hupdate⟩⟩ :=
    h.areaAlloc hops
  · refine ⟨0, mm', hrun, hmem, hself, hown, ⟨hmmap.trans hl.head, ?_, hl.ordered, hcount.trans hl.count⟩,
      Or.inl ⟨rfl, hsame⟩⟩
    rw [hsame]
    exact hl.seg
  · have hnotin : v ∉ cs.map Prod.fst := by
      intro hmem
      obtain ⟨c, hc, rfl⟩ := List.mem_map.mp hmem
      obtain ⟨-, n, hval⟩ := hl.seg.mem hc
      rw [hval] at hnone
      cases hnone
    refine ⟨v, mm', hrun, hmem, hself, hown, ⟨hmmap.trans hl.head, ?_, hl.ordered, hcount.trans hl.count⟩,
      Or.inr ⟨hv, hnotin, ?_, ?_⟩⟩
    · rw [hupdate]
      exact hl.seg.update hnotin _
    · intro a ha
      rw [hupdate, Function.update_of_ne ha]
    · rw [hupdate, Function.update_self]

/-- `split_vma_at` at an aligned address inside the area: out of memory, or two parts. -/
theorem Owns.split {J : Set Nat → σ → Prop} (hops : AllocatesArea ops I J) {mm : Mm σ}
    {xs ys : List (Nat × Region)} {a addr : Nat} {r : Region} (h : Owns I mm)
    (hl : Linked lost mm (xs ++ (a, r) :: ys)) (hlo : r.start < addr) (hhi : addr < r.stop)
    (halign : addr % 4096 = 0) :
    ∃ u mm', splitVmaAt ops mm a addr = some (u, mm') ∧ ops.kmalloc mm.env sizeofArea = some (u, mm'.env) ∧
      mm'.self = mm.self ∧ Owns J mm' ∧
      ((u = 0 ∧ Linked lost mm' (xs ++ (a, r) :: ys)) ∨
        (u ≠ 0 ∧ Linked lost mm' (xs ++ (a, r.lower addr) :: (u, r.upper addr) :: ys))) := by
  obtain ⟨-, -, haval, -⟩ := Seg.append.mp hl.seg
  have hval : mm.areas a = some (r.area (headPtr ys 0)) := haval
  obtain ⟨ha1, ha2, ha3, ha4⟩ := hl.ordered.valid (a, r) (by simp)
  dsimp only at ha1 ha2 ha3 ha4
  have hlen := hl.ordered.length_lt
  obtain ⟨u, mm₁, hrun, hmem, hself, hown, hlist, ⟨rfl, -⟩ | ⟨hu, hnew, hsame, hcleared⟩⟩ := h.alloc hops hl
  · refine ⟨0, mm₁, ?_, hmem, hself, hown, Or.inl ⟨rfl, hlist⟩⟩
    rw [splitVmaAt, hval]
    simp only [Option.bind_eq_bind, Option.bind_some, Region.area]
    rw [if_neg (by omega), hrun]
    rfl
  · have hau : a ≠ u := by
      rintro rfl
      exact hnew (by simp)
    have hval₁ : mm₁.areas a = some (r.area (headPtr ys 0)) := (hsame a hau).trans hval
    -- the upper part is linked in behind the area, which then loses its tail
    have hup : (r.upper addr).Valid := ⟨halign, ha2, hhi, ha4⟩
    have hnext : ∀ y ∈ ys.head?, r.stop ≤ y.2.start := by
      intro y hy
      have hcross := (List.pairwise_append.mp hl.ordered.sorted).2.1
      exact (List.pairwise_cons.mp hcross).1 y (List.mem_of_mem_head? hy)
    have hseg := (hlist.seg.insertAfter (c := (u, r.upper addr)) hl.nodup hu hnew).setVal
      (w := r.lower addr) (nodup_insertAfter (c := (u, r.upper addr)) hl.nodup hnew)
    rw [Function.update_idem] at hseg
    have hord := (hl.ordered.shrink (b := a) (r.lower addr)
      ⟨ha1, halign, hlo, lt_trans hhi ha4⟩ le_rfl hhi.le).insert (c := (u, r.upper addr)) hup le_rfl hnext
    refine ⟨u, { mm₁ with areas := _, mapCount := wrap (mm₁.mapCount + 1) }, ?_, hmem, hself, ?_,
      Or.inr ⟨hu, ⟨?_, hseg, hord, ?_⟩⟩⟩
    · rw [splitVmaAt, hval]
      simp only [Option.bind_eq_bind, Option.bind_some, Region.area]
      rw [if_neg (by omega), hrun]
      simp only [Option.bind_some, if_neg hu]
      rfl
    · refine hown.congr rfl (fun b => ?_) rfl
      have hval₂ : Function.update mm₁.areas u (some ((r.upper addr).area (headPtr ys 0))) a =
          some (r.area (headPtr ys 0)) := by
        rw [Function.update_of_ne hau]
        exact hval₁
      exact (update_none_iff hval₂ b).trans (update_none_iff hcleared b)
    · have hhd := hlist.head
      rw [headPtr_append] at hhd ⊢
      exact hhd
    · change wrap (mm₁.mapCount + 1) = _
      rw [hlist.count]
      simp only [List.length_append, List.length_cons]
      unfold wrap
      omega

end Structs

end Frostix.Vma
