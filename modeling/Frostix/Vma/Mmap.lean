import Frostix.Vma.Gap
import Frostix.Vma.Immediate
import Frostix.Vma.Munmap

/-!
`mmap_anonymous` at a given address. A call that returns `KERNEL_OK` adds the pages of the
request and nothing else, except that `addr + len` is computed in 32 bits: past 4 GiB an
unaligned address gets the one page that it is in. -/
namespace Frostix.Vma
open Machine32 LinkedStore Pmm Vmm Heap Services

section Calls

variable {σ : Type} {ops : MmOps σ} {I J : Set Nat → σ → Prop} {mm mm' : Mm σ} {cs : List (Nat × Region)}
  {addr len flags start stop out : Nat}

theorem placeArea_fixed (haddr : addr ≠ 0) (h : placeArea mm addr len = some (.ok (start, stop))) :
    start = alignDown addr 4096 ∧ stop = alignUp (wrap (addr + len)) 4096 := by
  unfold placeArea at h
  dsimp only at h
  split_ifs at h with hlen hempty hzero
  · cases h
  · cases h
  · cases h
  · cases h
    exact ⟨rfl, rfl⟩

/-- What `KERNEL_OK` stands for: one more area from `start` to `stop`, and with
`VM_MAP_IMMEDIATE` the loop over its pages came through. `s` is the state after the struct was
allocated. -/
structure Added (ops : MmOps σ) (mm' : Mm σ) (cs : List (Nat × Region)) (start stop flags out : Nat) (s : σ) :
    Prop where
  listed : ∃ v xs ys, cs = xs ++ ys ∧
    Listed mm' (xs ++ (v, ⟨start, stop, start / 4096, areaFlags flags⟩) :: ys)
  out : out = start
  filled : immediate flags = true → mapImmediate ops start ((stop - start) / 4096) 0 s = some (.ok, mm'.env)

theorem mmapAnonymous_linked (flags : Nat) {v : Nat} {r : Region} {xs ys : List (Nat × Region)}
    (hl : Linked 0 mm (xs ++ (v, r) :: ys)) {n : Nat}
    (himm : ∃ st s', mapImmediate ops start n 0 mm.env = some (st, s')) :
    ∃ st out mm', (if immediate flags then do
        let (status, env) ← mapImmediate ops start n 0 mm.env
        let mm := { mm with env }
        if status ≠ .ok then
          let mm ← removeVmStruct mm v
          some ((status, 0), vmAreaFree ops mm v)
        else some ((.ok, start), mm)
      else some ((.ok, start), mm)) = some ((st, out), mm') ∧
      (st = .ok → Linked 0 mm' (xs ++ (v, r) :: ys) ∧ out = start ∧
        (immediate flags = true → mapImmediate ops start n 0 mm.env = some (.ok, mm'.env))) := by
  by_cases hflag : immediate flags = true
  · obtain ⟨st, s', hrun⟩ := himm
    rw [if_pos hflag, hrun]
    simp only [Option.bind_eq_bind, Option.bind_some]
    by_cases hst : st = .ok
    · rw [if_neg (not_not.mpr hst), hst]
      exact ⟨.ok, start, _, rfl, fun _ => ⟨hl.setEnv s', rfl, fun _ => rfl⟩⟩
    · rw [if_pos hst]
      obtain ⟨mm₁, hremove, -⟩ := (hl.setEnv s').remove
      rw [hremove]
      exact ⟨st, 0, _, rfl, fun hok => absurd hok hst⟩
  · rw [if_neg hflag]
    exact ⟨.ok, start, mm, rfl, fun _ => ⟨hl, rfl, fun htrue => absurd htrue hflag⟩⟩

/-- `mmap_anonymous` returns on every list, and what it leaves when it returns `KERNEL_OK`. -/
theorem Listed.mmapAnonymous_result (hops : AllocatesArea ops I J) (hl : Listed mm cs) (hown : Owns I mm)
    (haddr : addr ≠ 0) (flags : Nat)
    (himm : ∀ start stop A s, J A s → start % 4096 = 0 → stop % 4096 = 0 → start < stop → stop < 2 ^ 32 →
      ∃ st s', mapImmediate ops start ((stop - start) / 4096) 0 s = some (st, s')) :
    ∃ st out mm', mmapAnonymous ops mm addr len flags = some ((st, out), mm') ∧
      (st = .ok → alignDown addr 4096 < alignUp (wrap (addr + len)) 4096 ∧ ∃ A s, J A s ∧
        Added ops mm' cs (alignDown addr 4096) (alignUp (wrap (addr + len)) 4096) flags out s) := by
  have hlinked := listed_iff.mp hl
  unfold mmapAnonymous
  rcases hlinked.placeArea_spec addr len with ⟨status, hplace, hne⟩ |
    ⟨start, stop, hplace, hs1, hs2, hlt, hmax, -⟩
  · rw [hplace]
    exact ⟨status, 0, mm, rfl, fun hok => absurd hok hne⟩
  obtain ⟨rfl, rfl⟩ := placeArea_fixed haddr hplace
  rw [hplace]
  generalize alignUp (wrap (addr + len)) 4096 = stop at *
  generalize alignDown addr 4096 = start at *
  simp only [Option.bind_eq_bind, Option.bind_some]
  obtain ⟨v, mm₁, halloc, -, -, hown₁, hl₁, ⟨rfl, -⟩ | ⟨hv, hnew, -, -⟩⟩ := hown.alloc hops hlinked
  · rw [halloc]
    exact ⟨.outOfMemory, 0, mm₁, rfl, nofun⟩
  rw [halloc]
  simp only [Option.bind_some, if_neg hv]
  have hl₂ := hl₁.setNew hnew ⟨start, stop, start / 4096, areaFlags flags, 0⟩
  generalize hmm₂ : ({ mm₁ with areas := Function.update mm₁.areas v (some
    ⟨start, stop, start / 4096, areaFlags flags, 0⟩) } : Mm σ) = mm₂ at *
  have henv₂ : mm₂.env = mm₁.env := by rw [← hmm₂]
  have harea₂ : mm₂.areas v = some (Region.area ⟨start, stop, start / 4096, areaFlags flags⟩ 0) := by
    rw [← hmm₂]
    exact Function.update_self ..
  obtain ⟨ok, mm₃, hinsert, hres⟩ := insertVmStruct_spec hl₂.head hl₂.seg hl₂.ordered.arranged hv hnew harea₂ hmax
  rw [hinsert]
  cases ok with
  | false => exact ⟨.alreadyMapped, 0, _, rfl, nofun⟩
  | true =>
      simp only [Option.bind_some, Bool.not_true, Bool.false_eq_true, if_false]
      cases hres with
      | done xs ys _ hcs _ _ hins =>
          have hl₃ := (hcs ▸ hl₂).inserted ⟨hs1, hs2, hlt, hmax⟩ hins
          have henv₃ : mm₃.env = mm₁.env := hins.env.trans henv₂
          obtain ⟨st, out, mm', hrun, hdone⟩ := mmapAnonymous_linked flags hl₃ (by
            rw [henv₃]
            exact himm start stop _ _ hown₁.ok hs1 hs2 hlt hmax)
          refine ⟨st, out, mm', hrun, fun hok => ⟨hlt, _, _, hown₁.ok, ?_⟩⟩
          obtain ⟨hl', hout, hfilled⟩ := hdone hok
          rw [henv₃] at hfilled
          exact ⟨⟨v, xs, ys, hcs, listed_iff.mpr hl'⟩, hout, hfilled⟩

end Calls

/-- What the call adds, in exact arithmetic: one area with the pages of the request, and with
`VM_MAP_IMMEDIATE` a frame for each page, which was free before. -/
structure MmapsExactly (mm mm' : Mm Kernel) (cs : List (Nat × Region)) (addr len flags out : Nat) : Prop where
  area : ∃ v r xs ys, cs = xs ++ ys ∧ Listed mm' (xs ++ (v, r) :: ys) ∧ r.start = addr / 4096 * 4096 ∧
    r.stop = roundUp (addr + len) ∧ out = r.start ∧
      (∀ x, addr ≤ x → x < addr + len → r.start ≤ x ∧ x < r.stop) ∧
    ∀ c ∈ cs, ¬ r.Overlaps c.2
  present : immediate flags = true → ∀ page, addr / 4096 * 4096 ≤ page * 4096 →
    page * 4096 < roundUp (addr + len) →
    ∃ f, mm'.env.machine.tr page = some f ∧ Free mm.env.machine.pmm f
  apart : immediate flags = true → Set.InjOn mm'.env.machine.tr
    {page | addr / 4096 * 4096 ≤ page * 4096 ∧ page * 4096 < roundUp (addr + len)}

section Kernel

variable {root : Nat} {A : Set Nat} {k : Kernel}

/-- The kernel after an allocation: still running, and no frame became free. -/
def Grown (k : Kernel) (_A : Set Nat) (k' : Kernel) : Prop :=
  Booted k'.machine ∧ ∀ f, Free k'.machine.pmm f → Free k.machine.pmm f

theorem Hosted.kmalloc_grown (h : Hosted root A k) :
    ∃ p k', kernelOps.kmalloc k sizeofArea = some (p, k') ∧
      ((p = 0 ∧ Grown k A k') ∨ (p ≠ 0 ∧ p < 2 ^ 32 ∧ p ∉ A ∧ Grown k (insert p A) k')) := by
  have hgrows : Grows machinePages fun e m => Booted m ∧ e % 4096 = 0 ∧ e ≤ windowPage * 4096 ∧
      ∀ f, Free m.pmm f → Free k.machine.pmm f := by
    refine machinePages_grows (fun _ _ hok => ⟨hok.1, hok.2.2.1⟩) ?_ ?_
    · rintro e m m' ⟨hbooted, haligned, hbelow, hfree⟩ hquiet
      exact ⟨hquiet.booted hbooted, haligned, hbelow, fun f hf => hfree f (hquiet.free f hf)⟩
    · rintro e m m' n a ⟨hbooted, haligned, -, hfree⟩ hbacked
      have hbelow := hbacked.below
      exact ⟨hbacked.quiet.booted hbooted, by omega, by omega, fun f hf => hfree f (hbacked.quiet.free f hf)⟩
  obtain ⟨bs, hint⟩ := h.integrity
  obtain ⟨p, k', hrun, -, ⟨hbooted, -, -, hfree⟩, hcase⟩ := h.kmalloc hgrows
    ⟨h.booted, hint.good.aligned, h.below, fun _ hf => hf⟩
  refine ⟨p, k', hrun, hcase.imp (fun hnull => ⟨hnull.1, hbooted, hfree⟩) fun hnew => ?_⟩
  exact ⟨hnew.1, hnew.2.1, hnew.2.2.1, hbooted, hfree⟩

theorem mapImmediate_grown {start stop : Nat} (h : Grown k A k) (hs1 : start % 4096 = 0) (hlt : start < stop)
    (hmax : stop < 2 ^ 32) :
    ∃ st k', mapImmediate kernelOps start ((stop - start) / 4096) 0 k = some (st, k') ∧
      Filled k k.machine k.handed (start / 4096) ((stop - start) / 4096) st k' ∧
      (st = .ok → Apart k'.machine (start / 4096) ((stop - start) / 4096)) := by
  have hpage : start / 4096 * 4096 = start := Nat.div_mul_cancel (Nat.dvd_of_mod_eq_zero hs1)
  have hlast : start / 4096 + (stop - start) / 4096 < pageLimit := by
    unfold pageLimit
    omega
  have hspec := @mapImmediate_spec k k.machine (start / 4096) _ k.handed h.1 hlast _ 0 k.machine id
    (Nat.zero_add _)
    (Laid.start h.1.toSound _ _) (Set.injOn_id _)
  rw [hpage] at hspec
  exact hspec

end Kernel

section Exact

variable {mm mm' : Mm Kernel} {cs : List (Nat × Region)} {addr len flags out : Nat}

theorem alignUp_of_below {start : Nat} (hsum : addr + len < 2 ^ 32)
    (hlt : start < alignUp (wrap (addr + len)) 4096) :
    alignUp (wrap (addr + len)) 4096 = roundUp (addr + len) := by
  rw [wrap_of_lt hsum] at hlt ⊢
  rcases lt_or_eq_of_le (roundUp_le hsum) with hsmall | hfull
  · exact alignUp_roundUp hsmall
  · rw [alignUp_full hsum hfull] at hlt
    exact absurd hlt (Nat.not_lt_zero _)

theorem roundUp_ge (n : Nat) : n ≤ roundUp n := by
  unfold roundUp
  omega

theorem Added.mmapsExactly {k : Kernel} {A : Set Nat} (hg : Grown mm.env A k)
    (h : Added kernelOps mm' cs (addr / 4096 * 4096) (roundUp (addr + len)) flags out k)
    (hlt : addr / 4096 * 4096 < roundUp (addr + len)) (hmax : roundUp (addr + len) < 2 ^ 32) :
    MmapsExactly mm mm' cs addr len flags out := by
  have hfilled : immediate flags = true → ∃ m' g, mm'.env.machine = m' ∧
      Laid k.machine m' (addr / 4096) ((roundUp (addr + len) - addr / 4096 * 4096) / 4096) g ∧
      Apart m' (addr / 4096) ((roundUp (addr + len) - addr / 4096 * 4096) / 4096) := by
    intro hflag
    obtain ⟨st, k', hrun, hfill, hapart⟩ := @mapImmediate_grown A k (addr / 4096 * 4096) (roundUp (addr + len))
      ⟨hg.1, fun _ hf => hf⟩ (Nat.mul_mod_left _ _) hlt hmax
    rw [Nat.mul_div_cancel _ (by decide : 0 < 4096)] at hfill hapart
    cases hrun.symm.trans (h.filled hflag)
    cases hfill with
    | done m' g _ hk' hlaid =>
        have hmachine : mm'.env.machine = m' := by rw [hk']; rfl
        have hap := hapart rfl
        rw [hmachine] at hap
        exact ⟨m', g, hmachine, hlaid, hap⟩
    | failed _ _ _ hst => exact absurd rfl hst
  have hpages : ∀ page, addr / 4096 * 4096 ≤ page * 4096 → page * 4096 < roundUp (addr + len) →
      ∃ j < (roundUp (addr + len) - addr / 4096 * 4096) / 4096, page = addr / 4096 + j := by
    intro page hlo hhi
    have hround : roundUp (addr + len) % 4096 = 0 := Nat.mul_mod_left _ _
    exact ⟨page - addr / 4096, by omega, by omega⟩
  refine ⟨?_, ?_, ?_⟩
  · obtain ⟨v, xs, ys, rfl, hl⟩ := h.listed
    refine ⟨v, _, xs, ys, rfl, hl, rfl, rfl, h.out, fun x hlo hhi => ⟨?_, ?_⟩, fun c hc => ?_⟩
    · exact le_trans (Nat.div_mul_le_self addr 4096) hlo
    · exact lt_of_lt_of_le hhi (roundUp_ge _)
    · exact hl.ordered.arranged.not_overlaps hc
  · intro hflag page hlo hhi
    obtain ⟨m', g, hmachine, hlaid, -⟩ := hfilled hflag
    obtain ⟨j, hj, rfl⟩ := hpages page hlo hhi
    rw [hmachine]
    exact ⟨g j, hlaid.done j hj, hg.2 _ (hlaid.fresh j hj).1⟩
  · intro hflag page hp page' hp' heq
    obtain ⟨m', g, hmachine, -, hapart⟩ := hfilled hflag
    obtain ⟨j, hj, rfl⟩ := hpages page hp.1 hp.2
    obtain ⟨l, hl, rfl⟩ := hpages page' hp'.1 hp'.2
    rw [hmachine] at heq
    rw [hapart hj hl heq]

/-- `mmap_anonymous` at an address returns, and when it returns `KERNEL_OK` it has mapped what
was asked for if and only if the request ends below 4 GiB. -/
theorem mmap_exact_iff (hl : Listed mm cs) (hown : Owns (Hosted mm.self) mm) (haddr : addr ≠ 0)
    (flags : Nat) :
    (∃ st out mm', mmapAnonymous kernelOps mm addr len flags = some ((st, out), mm')) ∧
      ∀ out mm', mmapAnonymous kernelOps mm addr len flags = some ((.ok, out), mm') →
        (MmapsExactly mm mm' cs addr len flags out ↔ addr + len < 2 ^ 32) := by
  have hops : AllocatesArea kernelOps (fun A k => Hosted mm.self A k ∧ k = mm.env) (Grown mm.env) := by
    rintro A k ⟨hk, rfl⟩
    exact hk.kmalloc_grown
  obtain ⟨st, out, mm', hrun, hdone⟩ := @Listed.mmapAnonymous_result _ _ _ _ _ _ addr len hops hl
    ⟨hown.self_apart, hown.ok, rfl⟩ haddr flags (by
      rintro start stop A s hg hs1 - hlt hmax
      obtain ⟨st, k', hloop, -⟩ := @mapImmediate_grown A s start stop ⟨hg.1, fun _ hf => hf⟩ hs1 hlt hmax
      exact ⟨st, k', hloop⟩)
  refine ⟨⟨st, out, mm', hrun⟩, ?_⟩
  intro out' mm'' hrun'
  cases hrun.symm.trans hrun'
  obtain ⟨hlt, A, s, hg, hadded⟩ := hdone rfl
  constructor
  · rintro ⟨⟨v, r, xs, ys, -, hl', -, hstop, -⟩, -, -⟩
    have hmax := (hl'.ordered.valid (v, r) (by simp)).2.2.2
    have hge := roundUp_ge (addr + len)
    dsimp only at hmax
    omega
  · intro hsum
    have hmax := alignUp_lt (wrap (addr + len))
    have hround := alignUp_of_below hsum hlt
    rw [hround] at hadded hlt hmax
    exact @Added.mmapsExactly mm mm' cs addr len flags out s A hg hadded hlt hmax

end Exact

def bareMm : Mm Kernel := ⟨0xD0000014, fun _ => none, 0, 0, smallMm.env⟩

theorem bareMm_listed : Listed bareMm [] := ⟨rfl, trivial, ⟨nofun, List.Pairwise.nil⟩, rfl⟩

theorem bareMm_hosted : Owns (Hosted bareMm.self) bareMm := by
  obtain ⟨-, hint, hbooted, hbelow, hlive⟩ := smallMm_hosted
  refine ⟨rfl, hint, hbooted, hbelow, ?_⟩
  rintro a (rfl | ha)
  · exact hlive _ (Set.mem_insert _ _)
  · exact absurd rfl ha

/-- Two pages are mapped at once, with their frames. -/
theorem mmap_exact_two_pages :
    ∃ out mm', mmapAnonymous kernelOps bareMm 0x100800 0x1000 0x10003 = some ((.ok, out), mm') ∧
      MmapsExactly bareMm mm' [] 0x100800 0x1000 0x10003 out := by
  obtain ⟨⟨st, out, mm', hrun⟩, hiff⟩ := @mmap_exact_iff bareMm [] 0x100800 0x1000 bareMm_listed bareMm_hosted
    (by decide) 0x10003
  have hst : (mmapAnonymous kernelOps bareMm 0x100800 0x1000 0x10003).map (fun x => x.1.1) = some .ok := by
    decide +kernel
  rw [hrun] at hst
  simp only [Option.map_some, Option.some.injEq] at hst
  subst hst
  exact ⟨out, mm', hrun, (hiff out mm' hrun).mpr (by decide)⟩

/-- A request of almost 4 GiB gets one page. -/
theorem mmap_wraps :
    ¬ ∀ (mm : Mm Kernel) (cs : List (Nat × Region)) (addr len flags : Nat), Listed mm cs →
      Owns (Hosted mm.self) mm → addr ≠ 0 → addr < 2 ^ 32 → len < 2 ^ 32 → ∀ out mm',
        mmapAnonymous kernelOps mm addr len flags = some ((.ok, out), mm') →
        MmapsExactly mm mm' cs addr len flags out := by
  intro h
  have hrun : (mmapAnonymous kernelOps bareMm 0x20000800 0xFFFFF900 3).map (fun x => x.1) =
      some (.ok, 0x20000000) := by decide +kernel
  obtain ⟨⟨⟨st, out⟩, mm'⟩, hmm', hdata⟩ := Option.map_eq_some_iff.mp hrun
  simp only [Prod.mk.injEq] at hdata
  obtain ⟨rfl, rfl⟩ := hdata
  obtain ⟨⟨v, r, xs, ys, -, hl, -, hstop, -⟩, -, -⟩ := h bareMm [] 0x20000800 0xFFFFF900 3 bareMm_listed
    bareMm_hosted (by decide) (by decide) (by decide) _ mm' hmm'
  have hmax := (hl.ordered.valid (v, r) (by simp)).2.2.2
  rw [hstop] at hmax
  exact absurd hmax (by decide)

end Frostix.Vma
