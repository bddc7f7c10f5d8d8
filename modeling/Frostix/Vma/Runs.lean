import Frostix.Lib.Transition
import Frostix.Vma.Ops

/-!
Runs of `mmap_anonymous` and `munmap_range` on one address space, over functions
below with any outcome. In runs whose calls are safe in the sense of `MmapSafe` and
`MunmapSafe` the areas stay allocated, sorted, aligned, disjoint and counted. -/
namespace Frostix.Vma
open Machine32 LinkedStore

variable {σ : Type}

theorem unmapPages_any {ops : MmOps σ} {I : Set Nat → σ → Prop} (h : AnyOutcome ops I)
    (virt n : Nat) {A : Set Nat} {s : σ} (hs : I A s) :
    ∃ s', unmapPages ops virt n s = some s' ∧ I A s' := by
  induction n with
  | zero => exact ⟨s, rfl, hs⟩
  | succ n ih =>
      obtain ⟨s₁, hrun, hs₁⟩ := ih
      obtain ⟨st, s', hlast, hs'⟩ := h.vmmUnmapPage (wrap (virt + n * 4096)) trivial A s₁ hs₁
      refine ⟨s', ?_, hs'⟩
      rw [Vma.unmapPages, hrun]
      simp only [Option.bind_eq_bind, Option.bind_some]
      rw [hlast]
      rfl

theorem mapImmediate_any {ops : MmOps σ} {I : Set Nat → σ → Prop} (h : AnyOutcome ops I)
    (start left : Nat) {A : Set Nat} :
    ∀ (i : Nat) (s : σ), I A s → ∃ st s', mapImmediate ops start left i s = some (st, s') ∧ I A s' := by
  induction left with
  | zero => exact fun i s hs => ⟨.ok, s, rfl, hs⟩
  | succ left ih =>
      intro i s hs
      have hs₁ := h.pmmAllocPage A s hs
      rw [Vma.mapImmediate]
      dsimp only
      by_cases hphys : (ops.pmmAllocPage s).1 = 0
      · rw [if_pos hphys]
        obtain ⟨s', hrun, hs'⟩ := unmapPages_any h start i hs₁
        rw [hrun]
        exact ⟨_, s', rfl, hs'⟩
      rw [if_neg hphys]
      obtain ⟨st, s₂, hmap, hs₂⟩ := h.vmmMapPage A _ (wrap (start + i * 4096)) (ops.pmmAllocPage s).1
        (pageFlagPresent + pageFlagRw) hs₁
      rw [hmap]
      simp only [Option.bind_eq_bind, Option.bind_some]
      by_cases hst : st ≠ .ok
      · rw [if_pos hst]
        obtain ⟨s', hrun, hs'⟩ := unmapPages_any h start i
          (h.pmmFreePage A s₂ (ops.pmmAllocPage s).1 hs₂)
        rw [hrun]
        exact ⟨_, s', rfl, hs'⟩
      · rw [if_neg hst]
        exact ih (i + 1) s₂ hs₂

inductive MmOp where
  | mmap (addr len flags : Nat)
  | munmap (addr len : Nat)

def MmOp.exec (ops : MmOps σ) (mm : Mm σ) : MmOp → Option (KernelStatus × Mm σ)
  | .mmap addr len flags => (mmapAnonymous ops mm addr len flags).map fun x => (x.1.1, x.2)
  | .munmap addr len => munmapRange ops mm addr len

def MmOp.Safe (mm : Mm σ) : MmOp → Prop
  | .mmap addr len _ => MmapSafe mm addr len
  | .munmap addr len => MunmapSafe mm addr len

def MmStep (ops : MmOps σ) (mm : Mm σ) (op : MmOp) (mm' : Mm σ) : Prop :=
  ∃ st, op.exec ops mm = some (st, mm')

def SafeStep (ops : MmOps σ) (mm : Mm σ) (op : MmOp) (mm' : Mm σ) : Prop :=
  op.Safe mm ∧ MmStep ops mm op mm'

theorem safe_step {ops : MmOps σ} {I : Set Nat → σ → Prop} (h : AnyOutcome ops I) {mm : Mm σ}
    {cs : List (Nat × Region)} (hl : Listed mm cs) (hown : Owns I mm) {op : MmOp} (hop : op.Safe mm) :
    ∃ st mm', op.exec ops mm = some (st, mm') ∧ (∃ cs', Listed mm' cs') ∧ Owns I mm' := by
  have hlinked := listed_iff.mp hl
  cases op with
  | mmap addr len flags =>
      obtain ⟨st, out, mm', hrun, -, hmapped⟩ := mmapAnonymous_spec h.toAllocator h.kfree hlinked hown
        hop flags (J := I) (fun start stop _ _ A s hs => by
          obtain ⟨st, s', hrun, hs'⟩ := mapImmediate_any h start ((stop - start) / 4096) 0 s hs.1
          exact ⟨st, s', hrun, fun _ => hs', fun _ => hs'⟩)
      refine ⟨st, mm', by rw [MmOp.exec, hrun]; rfl, ?_⟩
      cases hmapped with
      | refused _ hl' hown' => exact ⟨⟨cs, listed_iff.mpr hl'⟩, hown'⟩
      | failed start stop _ _ _ hl' hown' => exact ⟨⟨cs, listed_iff.mpr hl'⟩, hown'⟩
      | done start stop v r xs ys _ _ _ _ _ hl' himm hlazy =>
          refine ⟨⟨_, listed_iff.mpr hl'⟩, ?_⟩
          cases hflag : immediate flags with
          | true => exact himm hflag
          | false => exact hlazy hflag
  | munmap addr len =>
      obtain ⟨st, mm', cs', hrun, hl', hown', -⟩ := munmapRange_spec h.toAllocator hlinked hown hop
        (fun va _ => h.vmmUnmapPage va trivial)
      exact ⟨st, mm', hrun, ⟨cs', listed_iff.mpr hl'⟩, hown'⟩

def Kept (I : Set Nat → σ → Prop) (mm : Mm σ) : Prop := (∃ cs, Listed mm cs) ∧ Owns I mm

/-- In every safe run the areas are listed properly, and every safe call comes back. -/
theorem mm_run_listed {ops : MmOps σ} {I : Set Nat → σ → Prop} (hops : AnyOutcome ops I) {env : σ}
    (henv : I ∅ env) {mm₀ mm : Mm σ} (hcreate : mmCreate ops env = some mm₀) (hself : mm₀.self ≠ 0)
    (run : Transition.Run (SafeStep ops) mm₀ mm) :
    (∃ cs, Listed mm cs) ∧ ∀ op : MmOp, op.Safe mm → ∃ st mm', op.exec ops mm = some (st, mm') := by
  have hinv : Kept I mm := by
    refine run.invariant ?_ ?_
    · rintro s op t ⟨hop, st, hrun⟩ ⟨⟨cs, hl⟩, hown⟩
      obtain ⟨st', t', hrun', hl', hown'⟩ := safe_step hops hl hown hop
      cases hrun.symm.trans hrun'
      exact ⟨hl', hown'⟩
    · obtain ⟨p, s', hrun, hcase⟩ := hops.kmalloc 8 henv
      rw [mmCreate, hrun] at hcreate
      cases hcreate
      rcases hcase with ⟨hp, -⟩ | ⟨-, -, -, hok⟩
      · exact absurd hp hself
      · refine ⟨⟨[], rfl, trivial, ⟨nofun, List.Pairwise.nil⟩, rfl⟩, rfl, ?_⟩
        have hset : Mm.structs (⟨p, fun _ => none, 0, 0, s'⟩ : Mm σ) = insert p ∅ := by
          ext a
          simp [Mm.structs]
        rw [hset]
        exact hok
  obtain ⟨⟨cs, hl⟩, hown⟩ := hinv
  refine ⟨⟨cs, hl⟩, ?_⟩
  intro op hop
  obtain ⟨st, mm', hrun, -⟩ := safe_step hops hl hown hop
  exact ⟨st, mm', hrun⟩

/-- The address space after `mm_create` and some calls. -/
def bumpRun : List MmOp → Option (Mm Nat) :=
  Transition.execAll (fun op mm => op.exec bumpOps mm) (mmCreate bumpOps 0xD0000014)

theorem bumpRun_cons {op : MmOp} {earlier : List MmOp} {mm : Mm Nat}
    (h : bumpRun (op :: earlier) = some mm) :
    ∃ mm₀, bumpRun earlier = some mm₀ ∧ MmStep bumpOps mm₀ op mm := by
  obtain ⟨mm₀, st, hearlier, hexec⟩ := Transition.execAll_cons h
  exact ⟨mm₀, hearlier, st, hexec⟩

/-- A mapping below the first one is linked and then freed; and unmapping the second of
two areas drops the first. -/
theorem mm_run_broken :
    (∃ mm₀ mm, mmCreate bumpOps 0xD0000014 = some mm₀ ∧ Transition.Run (MmStep bumpOps) mm₀ mm ∧
      mm.mmap ≠ 0 ∧ mm.areas mm.mmap = none ∧ ¬ ∃ cs, Listed mm cs) ∧
    ∃ mm₀ mm, mmCreate bumpOps 0xD0000014 = some mm₀ ∧ Transition.Run (MmStep bumpOps) mm₀ mm ∧
      mm.mmap = 0 ∧ mm.mapCount = 1 ∧ ¬ ∃ cs, Listed mm cs := by
  constructor
  · have hrun : (bumpRun [.mmap 0x20000000 4096 3, .mmap 0x30000000 4096 3]).map
        (fun mm => (mm.mmap, mm.areas mm.mmap)) = some (0xD0000054, none) := by decide +kernel
    obtain ⟨mm, hmm, hdata⟩ := Option.map_eq_some_iff.mp hrun
    obtain ⟨mm₁, hmm₁, hstep⟩ := bumpRun_cons hmm
    obtain ⟨mm₀, hmm₀, hstep₀⟩ := bumpRun_cons hmm₁
    obtain ⟨hhead, hnone⟩ := Prod.mk.inj hdata
    have hne : mm.mmap ≠ 0 := by
      rw [hhead]
      decide
    refine ⟨mm₀, mm, hmm₀, ((Transition.Run.refl _).snoc hstep₀).snoc hstep, hne, hnone, ?_⟩
    rintro ⟨cs, hl⟩
    cases cs with
    | nil => exact hne hl.head
    | cons c cs =>
        have hval := hl.seg.2.1
        rw [← show mm.mmap = c.1 from hl.head, hnone] at hval
        cases hval
  · have hrun : (bumpRun [.munmap 0x30000000 4096, .mmap 0x30000000 4096 3, .mmap 0x20000000 4096 3]).map
        (fun mm => (mm.mmap, mm.mapCount)) = some (0, 1) := by decide +kernel
    obtain ⟨mm, hmm, hdata⟩ := Option.map_eq_some_iff.mp hrun
    obtain ⟨mm₂, hmm₂, hstep₂⟩ := bumpRun_cons hmm
    obtain ⟨mm₁, hmm₁, hstep₁⟩ := bumpRun_cons hmm₂
    obtain ⟨mm₀, hmm₀, hstep₀⟩ := bumpRun_cons hmm₁
    obtain ⟨hhead, hcount⟩ := Prod.mk.inj hdata
    refine ⟨mm₀, mm, hmm₀, (((Transition.Run.refl _).snoc hstep₀).snoc hstep₁).snoc hstep₂, hhead, hcount, ?_⟩
    rintro ⟨cs, hl⟩
    cases cs with
    | nil =>
        rw [hl.count] at hcount
        cases hcount
    | cons c cs => exact hl.seg.1 (hl.head.symm.trans hhead)

/-- Three pages are mapped and the middle one is unmapped again. -/
theorem mm_run_listed_small :
    ∃ mm₀ mm, mmCreate bumpOps 0xD0000014 = some mm₀ ∧ Transition.Run (SafeStep bumpOps) mm₀ mm ∧
      mm.mapCount = 2 ∧ ∃ cs, Listed mm cs := by
  have hrun : (bumpRun [.munmap 0x20001000 4096, .mmap 0x20000000 0x3000 3]).map
      (fun mm => mm.mapCount) = some 2 := by decide +kernel
  have hfirst : (bumpRun [.mmap 0x20000000 0x3000 3]).map
      (fun mm => (mm.mmap, findVma mm 0x20001000)) = some (0xD0000034, some 0xD0000034) := by
    decide +kernel
  obtain ⟨mm, hmm, hcount⟩ := Option.map_eq_some_iff.mp hrun
  obtain ⟨mm₁, hmm₁, hstep₁⟩ := bumpRun_cons hmm
  obtain ⟨mm₀, hmm₀, hstep₀⟩ := bumpRun_cons hmm₁
  rw [hmm₁] at hfirst
  obtain ⟨hhead, hfind⟩ := Prod.mk.inj (Option.some.inj hfirst)
  have hempty : mm₀.mmap = 0 ∧ mm₀.self ≠ 0 := by
    have hdata : (bumpRun []).map (fun mm => (mm.mmap, mm.self)) = some (0, 0xD0000014) := by decide +kernel
    rw [hmm₀] at hdata
    obtain ⟨h1, h2⟩ := Prod.mk.inj (Option.some.inj hdata)
    exact ⟨h1, by rw [h2]; decide⟩
  have hsteps : Transition.Run (SafeStep bumpOps) mm₀ mm := by
    have hsafe₀ : MmapSafe mm₀ 0x20000000 0x3000 := fun _ _ _ _ hne => absurd hempty.1 hne
    refine ((Transition.Run.refl _).snoc (a := .mmap 0x20000000 0x3000 3) ⟨hsafe₀, hstep₀⟩).snoc
      (a := .munmap 0x20001000 4096) ⟨?_, hstep₁⟩
    · intro v a hv _
      left
      rw [show alignDown 0x20001000 4096 = 0x20001000 from rfl, hfind] at hv
      rw [hhead]
      exact (Option.some.inj hv).symm
  have henv : 0 < 0xD0000014 ∧ ∀ a ∈ (∅ : Set Nat), a < 0xD0000014 := ⟨by decide, nofun⟩
  obtain ⟨hl, -⟩ := mm_run_listed bumpOps_anyOutcome henv hmm₀ hempty.2 hsteps
  exact ⟨mm₀, mm, hmm₀, hsteps, hcount, hl⟩

end Frostix.Vma
