import Frostix.Vma.Munmap

/-!
`munmap_range` after an allocation failed. Nothing is undone: the first split stays, and so do
the removals before the second one. The address space is untouched only when the failed
allocation was the first thing the call did. -/
namespace Frostix.Vma
open Machine32 LinkedStore Vmm Heap Services

variable {σ : Type}

/-- The areas of the list, in order, without the addresses of their structs. -/
def HasAreas (mm : Mm σ) (rs : List Region) : Prop :=
  ∃ cs, mm.mmap = headPtr cs 0 ∧ Seg Region.area mm.areas cs 0 ∧ cs.map Prod.snd = rs

/-- The areas, their number and the translations of pages are what they were. -/
structure Untouched (tr : σ → Nat → Option Nat) (mm mm' : Mm σ) : Prop where
  areas : ∀ rs, HasAreas mm rs → HasAreas mm' rs
  mapCount : mm'.mapCount = mm.mapCount
  pages : tr mm'.env = tr mm.env

/-- The length is 0, or the first area that ends above `start` has to be split there and memory
for a struct is not to be had, or it starts in the range and reaches beyond it. -/
def FailsFirst (ops : MmOps σ) (mm : Mm σ) (addr len : Nat) : Prop :=
  len = 0 ∨ ∃ v a, findVma mm (alignDown addr 4096) = some v ∧ v ≠ 0 ∧ mm.areas v = some a ∧
    ((a.vmStart < alignDown addr 4096 ∧ ∃ s, ops.kmalloc mm.env sizeofArea = some (0, s)) ∨
      (alignDown addr 4096 ≤ a.vmStart ∧ alignUp (wrap (addr + len)) 4096 < a.vmEnd))

theorem HasAreas.unique {mm : Mm σ} {rs : List Region} {cs : List (Nat × Region)} (h : HasAreas mm rs)
    (hhead : mm.mmap = headPtr cs 0) (hseg : Seg Region.area mm.areas cs 0) : cs.map Prod.snd = rs := by
  obtain ⟨ds, hhead', hseg', rfl⟩ := h
  rw [seg_unique cs ds hseg hseg' (hhead.symm.trans hhead')]

section Trimmed

variable {stop : Nat} {ps qs rest cs' : List (Nat × Region)} {st : KernelStatus}

theorem Trimmed.known (h : Trimmed stop ps qs rest st cs') (hqs : ps = qs) : ∃ zs, cs' = ps ++ zs := by
  induction h with
  | nil qs => exact ⟨[], by rw [hqs, List.append_nil]⟩
  | behind qs c rest _ => exact ⟨_, by rw [hqs]⟩
  | failed qs c rest _ _ => exact ⟨_, by rw [hqs]⟩
  | split qs c rest u _ _ => exact ⟨_, rfl⟩
  | drop qs c rest cs' st _ _ ih => exact ih rfl

theorem Trimmed.length_le (h : Trimmed stop ps qs rest st cs') (hqs : ps = qs) :
    cs'.length ≤ ps.length + rest.length := by
  induction h with
  | nil qs => rw [hqs]; exact Nat.le_add_right _ _
  | behind qs c rest _ => rw [hqs, List.length_append]
  | failed qs c rest _ _ => rw [hqs, List.length_append]
  | split qs c rest u _ _ => simp only [List.length_append, List.length_cons, le_refl]
  | drop qs c rest cs' st _ _ ih =>
      rw [List.length_cons]
      exact le_trans (ih rfl) (by omega)

end Trimmed

theorem Removed.changes {first : Nat → Prop} {start stop : Nat} {cs cs' : List (Nat × Region)}
    {st : KernelStatus} (h : Removed first start stop cs st cs') (hst : st ≠ .ok)
    (hlate : ∀ xs c ys, cs = xs ++ c :: ys → (∀ x ∈ xs, x.2.stop ≤ start) → start < c.2.stop →
      ¬ (c.2.start < start ∧ first 0) ∧ ¬ (start ≤ c.2.start ∧ stop < c.2.stop)) :
    cs'.map Prod.snd ≠ cs.map Prod.snd := by
  cases h with
  | none => exact absurd rfl hst
  | failed xs c ys hxs hlo hin hfirst => exact absurd ⟨hlo, hfirst⟩ (hlate xs c ys rfl hxs hin).1
  | cut xs c ys u st cs' hxs hlo hin htrim =>
      -- the area ends at `start` now
      obtain ⟨zs, rfl⟩ := htrim.known rfl
      intro heq
      simp only [List.map_append, List.append_assoc, List.map_cons, List.map_nil] at heq
      have hhead := (List.cons.inj (List.append_cancel_left heq)).1
      have hstop : (c.2.lower start).stop = c.2.stop := congrArg Region.stop hhead
      exact absurd hstop hin.ne
  | whole xs c ys st cs' hxs hge hin htrim =>
      have hbeyond := (hlate xs c ys rfl hxs hin).2
      cases htrim with
      | behind => exact absurd rfl hst
      | failed _ _ _ _ hend => exact absurd ⟨hge, hend⟩ hbeyond
      | split => exact absurd rfl hst
      | drop _ _ _ _ _ _ htrim =>
          intro heq
          have hlen := congrArg List.length heq
          have hle := htrim.length_le rfl
          simp only [List.length_map, List.length_append, List.length_cons, List.length_nil] at hlen hle
          omega

section First

variable {ops : MmOps σ} {mm mm' : Mm σ}

/-- A split without memory changes nothing but what `kmalloc` itself changed. -/
theorem splitVmaAt_out {v addr : Nat} {a : VmArea} (ha : mm.areas v = some a) (hlo : a.vmStart < addr)
    (hhi : addr < a.vmEnd) {u : Nat} (hrun : splitVmaAt ops mm v addr = some (u, mm')) :
    ops.kmalloc mm.env sizeofArea = some (u, mm'.env) ∧ (u = 0 → mm' = { mm with env := mm'.env }) := by
  unfold splitVmaAt vmAreaAlloc at hrun
  rw [ha] at hrun
  simp only [Option.bind_eq_bind, Option.bind_some,
    if_neg (not_or.mpr ⟨not_le.mpr hlo, not_le.mpr hhi⟩)] at hrun
  obtain ⟨⟨w, mm₁⟩, halloc, hrest⟩ := Option.bind_eq_some_iff.mp hrun
  obtain ⟨⟨p, s⟩, hmalloc, hcase⟩ := Option.bind_eq_some_iff.mp halloc
  dsimp only at hcase hrest
  by_cases hp : p = 0
  · rw [if_pos hp] at hcase
    cases hcase
    rw [if_pos rfl] at hrest
    cases hrest
    exact ⟨hp ▸ hmalloc, fun _ => rfl⟩
  · rw [if_neg hp] at hcase
    cases hcase
    rw [if_neg hp] at hrest
    cases hrest
    exact ⟨hmalloc, fun hzero => absurd hzero hp⟩

/-- When the first area of the range reaches beyond it, the loop fails at its first allocation
or not at all. -/
theorem munmapFrom_out {stop prev v fuel : Nat} {a : VmArea} (hv : v ≠ 0) (ha : mm.areas v = some a)
    (hend : stop < a.vmEnd) {st : KernelStatus} (hst : st ≠ .ok)
    (hrun : munmapFrom ops stop (fuel + 1) prev v mm = some (st, mm')) :
    ops.kmalloc mm.env sizeofArea = some (0, mm'.env) ∧ mm' = { mm with env := mm'.env } := by
  rw [munmapFrom, if_neg hv, ha] at hrun
  simp only [Option.bind_eq_bind, Option.bind_some] at hrun
  by_cases hbehind : stop ≤ a.vmStart
  · rw [if_pos hbehind] at hrun
    cases hrun
    exact absurd rfl hst
  rw [if_neg hbehind, if_pos hend] at hrun
  obtain ⟨⟨u, mm₁⟩, hsplit, hrest⟩ := Option.bind_eq_some_iff.mp hrun
  dsimp only at hrest
  obtain ⟨hmalloc, hsame⟩ := splitVmaAt_out ha (not_le.mp hbehind) hend hsplit
  by_cases hu : u = 0
  · rw [if_pos hu] at hrest
    cases hrest
    exact ⟨hu ▸ hmalloc, hsame hu⟩
  · -- with the upper part in place the call succeeds
    rw [if_neg hu] at hrest
    obtain ⟨lower, -, hrest⟩ := Option.bind_eq_some_iff.mp hrest
    obtain ⟨env, -, hrest⟩ := Option.bind_eq_some_iff.mp hrest
    obtain ⟨mm₂, -, hrest⟩ := Option.bind_eq_some_iff.mp hrest
    cases hrest
    exact absurd rfl hst

theorem munmapRange_out {lost : Nat} {cs : List (Nat × Region)} (hl : Linked lost mm cs) {addr len : Nat}
    {st : KernelStatus} (hst : st ≠ .ok) (hrun : munmapRange ops mm addr len = some (st, mm'))
    (hfirst : FailsFirst ops mm addr len) :
    mm' = mm ∨ ops.kmalloc mm.env sizeofArea = some (0, mm'.env) ∧ mm' = { mm with env := mm'.env } := by
  unfold munmapRange at hrun
  rcases hfirst with hlen | ⟨v, a, hv, hvne, ha, hcase⟩
  · rw [if_pos hlen] at hrun
    cases hrun
    exact Or.inl rfl
  by_cases hlen : len = 0
  · rw [if_pos hlen] at hrun
    cases hrun
    exact Or.inl rfl
  right
  have hin : alignDown addr 4096 < a.vmEnd := by
    rw [findVma, hl.head] at hv
    rcases Seg.findFrom_spec (alignDown addr 4096) cs listFuel hl.seg hl.ordered.length_lt_fuel with
      ⟨hnone, -⟩ | ⟨xs, c, ys, rfl, -, hlt, hsome⟩
    · exact absurd (Option.some.inj (hv.symm.trans hnone)) hvne
    · obtain rfl : v = c.1 := Option.some.inj (hv.symm.trans hsome)
      obtain ⟨-, -, hval, -⟩ := Seg.append.mp hl.seg
      cases ha.symm.trans hval
      exact hlt
  rw [if_neg hlen] at hrun
  simp only [hv, Option.bind_eq_bind, Option.bind_some, if_neg hvne] at hrun
  rw [ha] at hrun
  simp only [Option.bind_some] at hrun
  rcases hcase with ⟨hlo, s, hmalloc⟩ | ⟨hge, hend⟩
  · rw [if_pos ⟨hlo, hin⟩] at hrun
    obtain ⟨⟨u, mm₁⟩, hsplit, hrest⟩ := Option.bind_eq_some_iff.mp hrun
    dsimp only at hrest
    obtain ⟨hmalloc', hsame⟩ := splitVmaAt_out ha hlo hin hsplit
    cases hmalloc.symm.trans hmalloc'
    rw [if_pos rfl] at hrest
    cases hrest
    exact ⟨hmalloc', hsame rfl⟩
  · rw [if_neg fun hc => not_lt.mpr hge hc.1] at hrun
    rw [show listFuel = (listFuel - 1) + 1 from rfl] at hrun
    exact munmapFrom_out hvne ha hend hst hrun

end First

/-- An error of `munmap_range` leaves everything as it was if and only if the allocation that
failed was the first thing the call did. -/
theorem munmap_error_untouched_iff {ops : MmOps σ} {tr : σ → Nat → Option Nat} {lost : Nat} {mm mm' : Mm σ}
    {busy ready : Set Nat → Set Nat → σ → Prop} {P : Nat → Prop} (hun : Unmapping ops mm.self busy ready P)
    (hkeep : ∀ A s s', busy ∅ A s → ops.kmalloc s sizeofArea = some (0, s') → tr s' = tr s)
    {cs : List (Nat × Region)} (hl : Linked lost mm cs) (hown : Owns (busy ∅) mm) {addr len : Nat}
    (hP : ∀ va, va % 4096 = 0 → alignDown addr 4096 ≤ va → va < alignUp (wrap (addr + len)) 4096 →
      InAreas cs va → P va) {st : KernelStatus} (hrun : munmapRange ops mm addr len = some (st, mm'))
    (hst : st ≠ .ok) : Untouched tr mm mm' ↔ FailsFirst ops mm addr len := by
  constructor
  · intro hsame
    by_contra hlate
    have hlen : len ≠ 0 := fun hzero => hlate (Or.inl hzero)
    obtain ⟨st', mm'', cs', lost', U', hrun', hremoved, hleft, -⟩ := munmapRange_removes hun hl hown rfl hlen hP
    cases hrun.symm.trans hrun'
    refine hremoved.changes hst ?_ ((hsame.areas _ ⟨cs, hl.head, hl.seg, rfl⟩).unique hleft.linked.head
      hleft.linked.seg)
    intro xs c ys hsplit hxs hin
    subst hsplit
    obtain ⟨-, hcne, hcval, -⟩ := Seg.append.mp hl.seg
    refine ⟨fun hc => hlate ?_, fun hc => hlate ?_⟩
    · exact Or.inr ⟨c.1, _, hl.findVma_hit hxs hin, hcne, hcval, Or.inl hc⟩
    · exact Or.inr ⟨c.1, _, hl.findVma_hit hxs hin, hcne, hcval, Or.inr hc⟩
  · intro hfirst
    rcases munmapRange_out hl hst hrun hfirst with rfl | ⟨hmalloc, heq⟩
    · exact ⟨fun _ h => h, rfl, rfl⟩
    · refine ⟨?_, ?_, hkeep _ _ _ hown.ok hmalloc⟩
      · intro rs hrs
        rw [heq]
        exact hrs
      · rw [heq]

def lowPages (k : Kernel) (page : Nat) : Option Nat :=
  if page < heapStart / 4096 then k.machine.tr page else none

theorem kernel_kmalloc_keeps {root : Nat} {A : Set Nat} {k k' : Kernel} {p : Nat} (h : Busy root ∅ A k)
    (hrun : kernelOps.kmalloc k sizeofArea = some (p, k')) : lowPages k' = lowPages k := by
  obtain ⟨p', k'', hrun', hpages, -⟩ := (h.hosted rfl).alloc
  cases hrun.symm.trans hrun'
  funext page
  unfold lowPages
  split
  · exact hpages page ‹_›
  · rfl

/-- The bump allocator has `2 ^ 32 - env` bytes left. -/
def oneArea (env : Nat) : Mm Nat where
  self := 16
  areas := Function.update (fun _ => none) 32 (some ⟨0x20000000, 0x20003000, 0x20000, 19, 0⟩)
  mmap := 32
  mapCount := 1
  env := env

theorem oneArea_linked (env : Nat) : Linked 0 (oneArea env) [(32, ⟨0x20000000, 0x20003000, 0x20000, 19⟩)] := by
  refine ⟨rfl, ⟨by decide, rfl, trivial⟩, ⟨?_, List.pairwise_singleton _ _⟩, rfl⟩
  intro c hc
  rw [List.mem_singleton] at hc
  subst hc
  exact ⟨by decide, by decide, by decide, by decide⟩

theorem oneArea_owns {env : Nat} (henv : 32 < env) :
    Owns (fun A s => 0 < s ∧ ∀ a ∈ A, a < s) (oneArea env) := by
  refine ⟨rfl, Nat.zero_lt_of_lt henv, ?_⟩
  intro a ha
  rcases ha with rfl | ha
  · exact lt_trans (show 16 < 32 by decide) henv
  · by_cases h32 : a = 32
    · rw [h32]
      exact henv
    · refine absurd ?_ ha
      simp [oneArea, h32]

theorem bump_unmapping (root : Nat) : Unmapping bumpOps root (fun _ A s => 0 < s ∧ ∀ a ∈ A, a < s)
    (fun _ A s => 0 < s ∧ ∀ a ∈ A, a < s) fun _ => True :=
  .of_allocator bumpOps_anyOutcome.toAllocator bumpOps_anyOutcome.vmmUnmapPage root

theorem munmap_error_untouched_full :
    ∃ mm', munmapRange bumpOps (oneArea (2 ^ 32)) 0x20001000 0x1000 = some (.outOfMemory, mm') ∧
      Untouched (fun _ _ => none) (oneArea (2 ^ 32)) mm' := by
  have hst : (munmapRange bumpOps (oneArea (2 ^ 32)) 0x20001000 0x1000).map Prod.fst = some .outOfMemory := by
    decide +kernel
  obtain ⟨⟨st, mm'⟩, hrun, rfl⟩ := Option.map_eq_some_iff.mp hst
  refine ⟨mm', hrun, (munmap_error_untouched_iff (bump_unmapping 16) (fun _ _ _ _ _ => rfl)
    (oneArea_linked (2 ^ 32)) (oneArea_owns (by decide)) (fun _ _ _ _ _ => trivial) hrun nofun).mpr ?_⟩
  refine Or.inr ⟨32, ⟨0x20000000, 0x20003000, 0x20000, 19, 0⟩, by decide +kernel, by decide, rfl,
    Or.inl ⟨by decide, 2 ^ 32, rfl⟩⟩

/-- The area is split at the start of the range, and there is no memory for the second split. -/
theorem munmap_error_splits :
    ¬ ∀ (mm mm' : Mm Nat) (cs : List (Nat × Region)) (addr len : Nat) (st : KernelStatus), Linked 0 mm cs →
      Owns (fun A s => 0 < s ∧ ∀ a ∈ A, a < s) mm → munmapRange bumpOps mm addr len = some (st, mm') →
      st ≠ .ok → Untouched (fun _ _ => none) mm mm' := by
  intro h
  have hrun : (munmapRange bumpOps (oneArea 0xFFFFFFF0) 0x20001000 0x1000).map (fun x => (x.1, x.2.mapCount)) =
      some (.outOfMemory, 2) := by decide +kernel
  obtain ⟨⟨st, mm'⟩, hmm', hdata⟩ := Option.map_eq_some_iff.mp hrun
  simp only [Prod.mk.injEq] at hdata
  obtain ⟨rfl, hcount⟩ := hdata
  have hsame := h _ _ _ _ _ _ (oneArea_linked _) (oneArea_owns (by decide)) hmm' nofun
  exact absurd (hsame.mapCount.symm.trans hcount) (by decide)

end Frostix.Vma
